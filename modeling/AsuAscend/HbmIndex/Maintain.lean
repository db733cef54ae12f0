/-
`ops/asu_hbm_index_maintain_aicpu_kernel.aicpu`: the CPU maintenance pass, for one
request row.

The pass takes back as many slots as the lookups since the last one have handed
out. It walks the slots in circular order from a hashed start, frees every occupied
slot that the last queries do not protect, and pushes it onto the free list, until
`head` is back at zero. The walk is a `for` loop without a bound, so its model runs
on fuel.

The row stands by itself here. Where the ids in its slots are tokens of the row, the passes
over the tables of all requests (`MaintainTables`) do the same.

## What is proved

A walk that has enough unprotected occupied slots to find ends within one turn of
the slot table, and it frees the first `head` of them in circular order
(`maintainRow_spec`): the row afterwards is `evictAll` of the row before.

## How the proof goes

`walkTurn` is one turn of the loop; a turn takes back the slot that it comes to or passes it by.
The invariant of the walk is the list of the slots taken back so far (`Victims`), which is the
list of the evictable ones among the slots visited: taking one back does not change whether
another one is evictable. Within one turn of the ring no slot comes up twice, so that the list
grows to all evictable slots if the walk gets around once.
-/
import AsuAscend.HbmIndex.TileScan
import AsuAscend.Lib.CircularOrder
import AsuAscend.Lib.WordBitmap

set_option autoImplicit false

open MachineWords SentinelTable CircularOrder

namespace AsuAscend.HbmIndex

/-! ## The pass -/

def PROTECTED_WORD_BITS : ℕ := 64

abbrev ProtectedSlots := List (BitVec PROTECTED_WORD_BITS)

def hash32 (x : UInt32) : UInt32 :=
  let x := x ^^^ (x >>> 16)
  let x := x * 0x7feb352d
  let x := x ^^^ (x >>> 15)
  let x := x * 0x846ca68b
  x ^^^ (x >>> 16)

def markProtectedSlot (protectedSlots : ProtectedSlots) (slot : ℤ) : Except Halt ProtectedSlots :=
  let slotId := u32 slot
  if slotId / PROTECTED_WORD_BITS < protectedSlots.length then
    .ok (WordBitmap.mark protectedSlots slotId)
  else .error .outside

section

variable (d : Sizes)

def PROTECTED_WORD_COUNT : ℕ := (d.SLOT_COUNT + PROTECTED_WORD_BITS - 1) / PROTECTED_WORD_BITS

def clearProtectedSlots : ProtectedSlots := List.replicate (PROTECTED_WORD_COUNT d) 0

/-- The loop variables of the walk; `row.freeHead` is the local `head`, written back
at the end. -/
structure Walk where
  slot : ℕ
  row : Row

/-- One turn of the walk, on a row by itself: an id that names no element of the row ends it with
`.outside`. In memory the row is part of a buffer with the rows of all requests, and such an id
names an element of another row; `tablesTurn` is the turn on the buffer. -/
def walkTurn (protectedSlots : ProtectedSlots) (c : Walk) : Except Halt Walk := do
  let indexId ← getValue c.row.slotToIndex c.slot
  if indexId ≠ NOT_FOUND ∧ WordBitmap.test protectedSlots c.slot = false then
    let slotToIndex ← setValue c.row.slotToIndex c.slot NOT_FOUND
    let index ← setValue c.row.index (u32 indexId) NOT_FOUND
    let head := c.row.freeHead - 1
    let freeSlots ← setValue c.row.freeSlots (u32 head) (i32 c.slot)
    return ⟨next d.SLOT_COUNT c.slot, ⟨index, slotToIndex, freeSlots, head⟩⟩
  else return ⟨next d.SLOT_COUNT c.slot, c.row⟩

/-- The walk, cut off after `fuel` turns. -/
def walk (protectedSlots : ProtectedSlots) : ℕ → Walk → Except Halt Row
  | 0, c => if c.row.freeHead > 0 then .error .outOfFuel else .ok c.row
  | fuel + 1, c =>
      if c.row.freeHead > 0 then walkTurn d protectedSlots c >>= walk protectedSlots fuel
      else .ok c.row

/-- The body of the loop over the requests in `MaintainEviction`. -/
def maintainRow (fuel : ℕ) (seed reqId : UInt32) (lastQuerySlots : List ℤ) (row : Row) :
    Except Halt Row :=
  if row.freeHead = 0 then .ok row
  else do
    let start := (hash32 (seed ^^^ reqId)).toNat % d.SLOT_COUNT
    let protectedSlots ← (List.range d.QUERY_COUNT).foldlM (fun words i => do
      markProtectedSlot words (← getValue lastQuerySlots i)) (clearProtectedSlots d)
    walk d protectedSlots fuel ⟨start, row⟩

end

/-! ## What it frees -/

/-- One victim: both entries are cleared and the slot goes onto the free list. -/
def evictSlot (row : Row) (slot : ℕ) : Row where
  index := row.index.set (u32 (read row.slotToIndex slot)) NOT_FOUND
  slotToIndex := row.slotToIndex.set slot NOT_FOUND
  freeSlots := row.freeSlots.set (u32 (row.freeHead - 1)) slot
  freeHead := row.freeHead - 1

def evictAll (row : Row) (victims : List ℕ) : Row := victims.foldl evictSlot row

@[simp] theorem evictAll_nil (row : Row) : evictAll row [] = row := rfl

theorem evictAll_concat (row : Row) (victims : List ℕ) (slot : ℕ) :
    evictAll row (victims ++ [slot]) = evictSlot (evictAll row victims) slot := by
  simp [evictAll, List.foldl_append]

/-- An occupied slot that is not protected. -/
def Evictable (row : Row) (protectedSlots : ProtectedSlots) (slot : ℕ) : Prop :=
  read row.slotToIndex slot ≠ NOT_FOUND ∧ WordBitmap.test protectedSlots slot = false

instance (row : Row) (protectedSlots : ProtectedSlots) (slot : ℕ) :
    Decidable (Evictable row protectedSlots slot) := inferInstanceAs (Decidable (_ ∧ _))

/-- The evictable slots among the first `len` of the walk. -/
def evictables (d : Sizes) (row : Row) (protectedSlots : ProtectedSlots) (start len : ℕ) : List ℕ :=
  (order d.SLOT_COUNT start len).filter (Evictable row protectedSlots ·)

section

variable {d : Sizes} {row : Row} {protectedSlots : ProtectedSlots} {start : ℕ}

/-- Within one turn no slot comes up twice. -/
theorem evictables_nodup (len : ℕ) (h : len ≤ d.SLOT_COUNT) :
    (evictables d row protectedSlots start len).Nodup :=
  (order_nodup start h).filter _

/-- A longer walk takes the same slots first. -/
theorem evictables_prefix (d : Sizes) (row : Row) (protectedSlots : ProtectedSlots) (start : ℕ)
    {k len : ℕ} (h : k ≤ len) :
    evictables d row protectedSlots start k <+: evictables d row protectedSlots start len := by
  apply List.IsPrefix.filter
  apply List.IsPrefix.map
  rw [List.prefix_iff_eq_take, List.length_range, List.take_range, Nat.min_eq_left h]

/-- The next slot of the walk joins if it is evictable. -/
theorem evictables_succ (d : Sizes) (row : Row) (protectedSlots : ProtectedSlots) (start k : ℕ) :
    evictables d row protectedSlots start (k + 1) =
    evictables d row protectedSlots start k ++
      if Evictable row protectedSlots ((start + k) % d.SLOT_COUNT)
        then [(start + k) % d.SLOT_COUNT] else [] := by
  rw [evictables, order_succ, List.filter_append, List.filter_singleton]
  simp [evictables]

/-- What the walk takes it has come to, and it was occupied and unprotected. -/
theorem mem_evictables {len slot : ℕ} (h : slot ∈ evictables d row protectedSlots start len) :
    slot ∈ order d.SLOT_COUNT start len ∧ Evictable row protectedSlots slot := by
  rw [evictables, List.mem_filter, decide_eq_true_iff] at h
  exact h

/-! ## The lengths stay, and so does what is not freed -/

/-- Taking back slots stores into the lists in place. -/
theorem evictAll_lengths (row : Row) (victims : List ℕ) :
    (evictAll row victims).index.length = row.index.length ∧
      (evictAll row victims).slotToIndex.length = row.slotToIndex.length ∧
      (evictAll row victims).freeSlots.length = row.freeSlots.length := by
  induction victims using List.reverseRecOn with
  | nil => exact ⟨rfl, rfl, rfl⟩
  | append_singleton victims slot ih =>
      rw [evictAll_concat]
      simpa [evictSlot] using ih

/-- The head of the free list goes down by one for each slot. -/
theorem evictAll_freeHead (row : Row) (victims : List ℕ) :
    (evictAll row victims).freeHead = row.freeHead - victims.length := by
  induction victims using List.reverseRecOn with
  | nil => simp
  | append_singleton victims slot ih =>
      rw [evictAll_concat, List.length_append]
      simp only [evictSlot, ih, List.length_singleton]
      omega

/-- The slot table after slots have been taken back: theirs are empty. -/
theorem evictAll_slot {victims : List ℕ} (h : ∀ v ∈ victims, v < row.slotToIndex.length)
    (slot : ℕ) : read (evictAll row victims).slotToIndex slot =
      if slot ∈ victims then NOT_FOUND else read row.slotToIndex slot := by
  induction victims using List.reverseRecOn with
  | nil => simp
  | append_singleton victims v ih =>
      have ih := ih fun u hu => h u (List.mem_append_left _ hu)
      have hv : v < (evictAll row victims).slotToIndex.length := by
        rw [(evictAll_lengths row victims).2.1]; exact h v (by simp)
      rw [evictAll_concat]
      simp only [evictSlot]
      rw [read_set hv, ih]
      by_cases hs : slot = v
      · simp [hs]
      · simp [hs]

/-! ## The walk -/

/-- What the walk relies on: occupied slots hold tokens of the index row, and the
head lies inside the free list. -/
structure Walkable (d : Sizes) (row : Row) : Prop where
  slot_length : row.slotToIndex.length = d.SLOT_COUNT
  token_lt : ∀ slot < d.SLOT_COUNT, read row.slotToIndex slot ≠ NOT_FOUND →
    u32 (read row.slotToIndex slot) < row.index.length
  head_le : row.freeHead ≤ row.freeSlots.length
  free_i32 : row.freeSlots.length ≤ 2 ^ 31

/-- Victims of a walk so far: each once, and each a slot that was evictable at the start. -/
structure Victims (d : Sizes) (row : Row) (protectedSlots : ProtectedSlots) (vs : List ℕ) : Prop where
  nodup : vs.Nodup
  lt : ∀ v ∈ vs, v < d.SLOT_COUNT
  evictable : ∀ v ∈ vs, Evictable row protectedSlots v

/-- One turn, at any slot: a slot that is still evictable is the next victim. -/
theorem walkTurn_evictAll (hd : d.Fits) (hw : Walkable d row) {vs : List ℕ}
    (hvs : Victims d row protectedSlots vs) {slot : ℕ} (hslot : slot < d.SLOT_COUNT)
    (hpos : (evictAll row vs).freeHead > 0) :
    walkTurn d protectedSlots ⟨slot, evictAll row vs⟩ = .ok ⟨next d.SLOT_COUNT slot,
      evictAll row (if slot ∉ vs ∧ Evictable row protectedSlots slot then vs ++ [slot] else vs)⟩ := by
  have hfree := hw.free_i32
  have hheadLe := hw.head_le
  have hi32 := hd.slot_i32
  have hlen := evictAll_lengths row vs
  have hread : read (evictAll row vs).slotToIndex slot =
      if slot ∈ vs then NOT_FOUND else read row.slotToIndex slot :=
    evictAll_slot (fun v hv => by rw [hw.slot_length]; exact hvs.lt v hv) slot
  unfold walkTurn
  rw [getValue_ok (by rw [hlen.2.1, hw.slot_length]; exact hslot), hread]
  simp only [bind, Except.bind, pure, Except.pure]
  by_cases hmem : slot ∈ vs
  · -- a slot that has been freed is empty now
    rw [if_pos hmem, if_neg fun h => h.1 rfl, if_neg fun h => h.1 hmem]
  · rw [if_neg hmem]
    by_cases hev : Evictable row protectedSlots slot
    -- a slot that is taken back: its token is cleared, and it goes before the head
    · have htok := hw.token_lt _ hslot hev.1
      have hhead := evictAll_freeHead row vs
      rw [if_pos (show _ ∧ _ from hev), if_pos ⟨hmem, hev⟩, evictAll_concat,
        setValue_ok (by rw [hlen.2.1, hw.slot_length]; exact hslot),
        setValue_ok (by rw [hlen.1]; exact htok)]
      dsimp only
      rw [setValue_ok (by
        rw [hlen.2.2, u32_of_nonneg (by omega) (by omega)]
        omega), i32_of_lt (by omega) (by omega)]
      simp only [evictSlot, hread, if_neg hmem]
    -- an empty or protected slot is passed over
    · rw [if_neg (show ¬ (_ ∧ _) from hev), if_neg fun h => hev h.2]

/-- The slots of a walk are victims: distinct, in range, occupied and unprotected. -/
theorem victims_evictables (hd : d.Fits) {k : ℕ} (hk : k ≤ d.SLOT_COUNT) :
    Victims d row protectedSlots (evictables d row protectedSlots start k) where
  nodup := evictables_nodup k hk
  lt := fun _ hv => lt_of_mem_order hd.slot_pos (mem_evictables hv).1
  evictable := fun _ hv => (mem_evictables hv).2

/-- One turn past the victims taken so far. -/
theorem walkTurn_spec (hd : d.Fits) (hw : Walkable d row) {k : ℕ} (hk : k < d.SLOT_COUNT)
    (hpos : (evictAll row (evictables d row protectedSlots start k)).freeHead > 0) :
    walkTurn d protectedSlots ⟨(start + k) % d.SLOT_COUNT,
        evictAll row (evictables d row protectedSlots start k)⟩ =
      .ok ⟨(start + (k + 1)) % d.SLOT_COUNT,
        evictAll row (evictables d row protectedSlots start (k + 1))⟩ := by
  have hslot : (start + k) % d.SLOT_COUNT < d.SLOT_COUNT := Nat.mod_lt _ hd.slot_pos
  -- the slot comes up for the first time
  have hfresh : (start + k) % d.SLOT_COUNT ∉ evictables d row protectedSlots start k := by
    have hnd := order_nodup start (show k + 1 ≤ d.SLOT_COUNT by omega)
    rw [order_succ, List.nodup_append] at hnd
    intro hmem
    exact hnd.2.2 _ (mem_evictables hmem).1 _ (by simp) rfl
  rw [walkTurn_evictAll hd hw (victims_evictables hd hk.le) hslot hpos, next_mod hd.slot_pos,
    evictables_succ]
  by_cases hev : Evictable row protectedSlots ((start + k) % d.SLOT_COUNT)
  · rw [if_pos ⟨hfresh, hev⟩, if_pos hev]
    rfl
  · rw [if_neg fun h => hev h.2, if_neg hev, List.append_nil]
    rfl

/-- **The walk.** With enough slots to free, it ends within one turn of the slot
table and frees the first `freeHead` evictable slots it meets. -/
theorem walk_spec (hd : d.Fits) (hw : Walkable d row) (hstart : start < d.SLOT_COUNT)
    {h : ℕ} (hh : row.freeHead = h)
    (henough : h ≤ (evictables d row protectedSlots start d.SLOT_COUNT).length)
    {fuel : ℕ} (hfuel : d.SLOT_COUNT ≤ fuel) :
    walk d protectedSlots fuel ⟨start, row⟩ =
      .ok (evictAll row ((evictables d row protectedSlots start d.SLOT_COUNT).take h)) := by
  -- from turn `k` on, with fuel for the rest of the table
  have key : ∀ m k fuel, k + m = d.SLOT_COUNT → m ≤ fuel →
      (evictables d row protectedSlots start k).length ≤ h →
      walk d protectedSlots fuel ⟨(start + k) % d.SLOT_COUNT,
          evictAll row (evictables d row protectedSlots start k)⟩ =
        .ok (evictAll row ((evictables d row protectedSlots start d.SLOT_COUNT).take h)) := by
    intro m
    induction m with
    | zero =>
        intro k fuel hk _ hle
        have hk : k = d.SLOT_COUNT := by omega
        subst hk
        have heq : (evictables d row protectedSlots start d.SLOT_COUNT).length = h := by omega
        have hzero : ¬ (evictAll row
            (evictables d row protectedSlots start d.SLOT_COUNT)).freeHead > 0 := by
          rw [evictAll_freeHead]; omega
        rw [List.take_of_length_le (by omega)]
        cases fuel with
        | zero => exact if_neg hzero
        | succ fuel => exact if_neg hzero
    | succ m ih =>
        intro k fuel hk hfuel hle
        obtain ⟨fuel, rfl⟩ : ∃ f, fuel = f + 1 := ⟨fuel - 1, by omega⟩
        have hhead := evictAll_freeHead row (evictables d row protectedSlots start k)
        by_cases hpos : (evictAll row (evictables d row protectedSlots start k)).freeHead > 0
        · have hstep : (evictables d row protectedSlots start (k + 1)).length ≤ h := by
            rw [evictables_succ, List.length_append]
            split_ifs
            · rw [List.length_singleton]; omega
            · rw [List.length_nil]; omega
          rw [walk, if_pos hpos, walkTurn_spec hd hw (by omega) hpos]
          exact ih (k + 1) fuel (by omega) (by omega) hstep
        · -- all `h` victims are found, and they are the first `h` of the whole turn
          obtain ⟨rest, hrest⟩ := evictables_prefix d row protectedSlots start
            (show k ≤ d.SLOT_COUNT by omega)
          have heq : (evictables d row protectedSlots start k).length = h := by omega
          rw [walk, if_neg hpos, ← hrest, List.take_left' heq]
  have h0 := key d.SLOT_COUNT 0 fuel (by omega) hfuel (by simp [evictables, order])
  rwa [Nat.add_zero, Nat.mod_eq_of_lt hstart, show evictables d row protectedSlots start 0 = [] by
    simp [evictables, order], evictAll_nil] at h0

/-! ## The pass -/

/-- The bitmap after all marks: a bit is set exactly for the slots of the last query. -/
theorem markProtectedSlots_spec {last : List ℤ} (hlen : last.length = d.QUERY_COUNT)
    (hd : d.Fits) (hlast : ∀ z ∈ last, 0 ≤ z ∧ z < d.SLOT_COUNT) :
    ∃ words, (List.range d.QUERY_COUNT).foldlM (fun words i => do
        markProtectedSlot words (← getValue last i)) (clearProtectedSlots d) = .ok words ∧
      ∀ slot : ℕ, WordBitmap.test words slot = decide ((slot : ℤ) ∈ last) := by
  have hi32 := hd.slot_i32
  obtain ⟨words, hwords, hwl, htest⟩ := Folds.foldlM_prefix (f := fun words i => do
      markProtectedSlot words (← getValue last i))
    (fun pre words => words.length = PROTECTED_WORD_COUNT d ∧
      ∀ slot : ℕ, WordBitmap.test words slot = decide (∃ i ∈ pre, read last i = slot))
    (List.range d.QUERY_COUNT) (s := clearProtectedSlots d)
    ⟨by simp [clearProtectedSlots], fun slot => by
      rw [clearProtectedSlots]
      exact (WordBitmap.test_replicate (by decide) _ _).trans (by simp)⟩ (by
      intro pre i suf words hsplit ⟨hwl, htest⟩
      have hi : i < last.length := by
        rw [hlen, ← List.mem_range, hsplit]; simp
      obtain ⟨h0, h1⟩ := hlast _ (read_mem hi)
      have hu : u32 (read last i) = (read last i).toNat := u32_of_nonneg h0 (by omega)
      have hword : u32 (read last i) / PROTECTED_WORD_BITS < words.length := by
        rw [hwl, hu, PROTECTED_WORD_COUNT, PROTECTED_WORD_BITS]
        omega
      -- the word of a slot is there, since the slot is in the table
      refine ⟨WordBitmap.mark words (u32 (read last i)), ?_, ?_, fun slot => ?_⟩
      · rw [getValue_ok hi]
        exact if_pos hword
      · rw [WordBitmap.mark_length, hwl]
      · rw [WordBitmap.test_mark (by decide) hword, htest, ← Bool.decide_or]
        apply decide_eq_decide.mpr
        simp only [List.mem_append, List.mem_singleton]
        constructor
        · rintro (rfl | ⟨i', hi', h⟩)
          · exact ⟨i, Or.inr rfl, by rw [hu]; omega⟩
          · exact ⟨i', Or.inl hi', h⟩
        · rintro ⟨i', hi' | rfl, h⟩
          · exact Or.inr ⟨i', hi', h⟩
          · exact Or.inl (by rw [hu, h, Int.toNat_natCast]))
  refine ⟨words, hwords, fun slot => ?_⟩
  rw [htest]
  apply decide_eq_decide.mpr
  rw [mem_iff_read, hlen]
  simp only [List.mem_range]

/-- Where the walk starts. -/
def walkStart (d : Sizes) (seed reqId : UInt32) : ℕ := (hash32 (seed ^^^ reqId)).toNat % d.SLOT_COUNT

/-- The walk starts at a slot, whatever seed and request hash to. -/
theorem walkStart_lt (hd : d.Fits) (seed reqId : UInt32) : walkStart d seed reqId < d.SLOT_COUNT :=
  Nat.mod_lt _ hd.slot_pos

/-- The pass is the walk past the slots that the last queries do not protect; for a row with
nothing to take back, that is no walk at all. -/
theorem maintainRow_eq_walk (hd : d.Fits) {last : List ℤ} (hlen : last.length = d.QUERY_COUNT)
    (hlast : ∀ z ∈ last, 0 ≤ z ∧ z < d.SLOT_COUNT) :
    ∃ words, (List.range d.QUERY_COUNT).foldlM (fun words i => do
        markProtectedSlot words (← getValue last i)) (clearProtectedSlots d) = .ok words ∧
      (∀ slot : ℕ, WordBitmap.test words slot = decide ((slot : ℤ) ∈ last)) ∧
      ∀ (fuel : ℕ) (seed reqId : UInt32) (row : Row), maintainRow d fuel seed reqId last row =
        walk d words fuel ⟨walkStart d seed reqId, row⟩ := by
  obtain ⟨words, hwords, htest⟩ := markProtectedSlots_spec hlen hd hlast
  refine ⟨words, hwords, htest, fun fuel seed reqId row => ?_⟩
  unfold maintainRow
  split_ifs with hzero
  · have hnot : ¬ row.freeHead > 0 := by omega
    cases fuel with
    | zero => exact (if_neg hnot).symm
    | succ fuel => exact (if_neg hnot).symm
  · rw [hwords]
    rfl

/-- The slots that are evictable, in terms of the last queries. -/
theorem evictable_iff {last : List ℤ} {words : ProtectedSlots}
    (htest : ∀ slot : ℕ, WordBitmap.test words slot = decide ((slot : ℤ) ∈ last)) (slot : ℕ) :
    Evictable row words slot ↔ read row.slotToIndex slot ≠ NOT_FOUND ∧ (slot : ℤ) ∉ last := by
  unfold Evictable
  rw [htest, decide_eq_false_iff_not]

/-- **The pass.** With at least `freeHead` occupied slots that the last queries do
not protect, it frees the first `freeHead` of them in circular order. -/
theorem maintainRow_spec (hd : d.Fits) (hw : Walkable d row) (last : List ℤ)
    (hlen : last.length = d.QUERY_COUNT) (hlast : ∀ z ∈ last, 0 ≤ z ∧ z < d.SLOT_COUNT)
    {h : ℕ} (hh : row.freeHead = h)
    (henough : h ≤ ((List.range d.SLOT_COUNT).filter fun slot =>
      read row.slotToIndex slot ≠ NOT_FOUND ∧ (slot : ℤ) ∉ last).length)
    {fuel : ℕ} (hfuel : d.SLOT_COUNT ≤ fuel) (seed reqId : UInt32) :
    ∃ victims : List ℕ, victims.Nodup ∧ victims.length = h ∧
      (∀ v ∈ victims, v < d.SLOT_COUNT ∧ read row.slotToIndex v ≠ NOT_FOUND ∧ (v : ℤ) ∉ last) ∧
      maintainRow d fuel seed reqId last row = .ok (evictAll row victims) := by
  obtain ⟨words, _, htest, hwalk⟩ := maintainRow_eq_walk hd hlen hlast
  rw [hwalk]
  generalize hstart : walkStart d seed reqId = start
  have hlt : start < d.SLOT_COUNT := hstart ▸ walkStart_lt hd seed reqId
  have hcount : h ≤ (evictables d row words start d.SLOT_COUNT).length := by
    rw [evictables, ((order_perm hd.slot_pos).filter _).length_eq]
    simp only [evictable_iff htest]
    exact henough
  refine ⟨(evictables d row words start d.SLOT_COUNT).take h,
    (evictables_nodup _ le_rfl).sublist (List.take_sublist _ _), ?_, fun v hv => ?_,
    walk_spec hd hw hlt hh hcount hfuel⟩
  · rw [List.length_take]; omega
  · obtain ⟨hmem, hv⟩ := mem_evictables (List.mem_of_mem_take hv)
    exact ⟨lt_of_mem_order hd.slot_pos hmem, (evictable_iff htest v).mp hv⟩

end

end AsuAscend.HbmIndex
