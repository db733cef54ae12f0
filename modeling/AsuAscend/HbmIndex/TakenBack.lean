/-
What the maintenance takes back, whatever the ids in the slots name.

For a request whose slots, free list and queries are addressed as they should be, the slots
that its walk takes back are `takenBack`: the first `free_head` occupied slots that the last
queries do not protect, in circular order from the hashed start. They do not depend on the
index, which the pass only writes. Where the pass ends, the ids in these slots have named
elements of the index buffer, and those are cleared (`maintainRequest_ok`); and it ends if
they do and if there are enough slots (`maintainRequest_spec`).

`takenAll` puts the requests together. It is what the host's loop leaves, and what the cores
leave in any interleaving (`serves_taken`).

## Why the slots do not depend on the ids

A turn looks at the slot table, the bitmap and the head. Ids are read from the slot table and
used for a store into the index, which no turn reads. So the walk of a request is known slot by
slot before any of it has run: `takenBack` is a function of the tables before the launch, and the
passes of other requests do not change it, because they write other rows of the slot table.

The elements that are cleared are a set (`cleared`), in which it does not matter who clears what
first, or twice.
-/
import AsuAscend.HbmIndex.MaintainTables
import AsuAscend.Lib.CircularSweep
import Mathlib.Data.Finset.Union

set_option autoImplicit false

open Function (update)
open MachineWords SentinelTable StrideCores CircularOrder CircularSweep

namespace AsuAscend.HbmIndex

/-! ## The slots that are taken back -/

/-- The slots that the walk of request `r` takes back: the first `free_head` occupied slots that
the last queries do not protect, in circular order from the hashed start. -/
def takenBack (d : Sizes) (seed : UInt32) (m : Tables) (r : ℕ) : List ℕ :=
  (unprotected (m.row d arrayBase r) (m.queryRow d arrayBase r)
    (order d.SLOT_COUNT (walkStart d seed (UInt32.ofNat r)) d.SLOT_COUNT)).take (m.freeHead r).toNat

/-- The part of a request's row that the walk reads. -/
def Tables.slotRow (d : Sizes) (m : Tables) (r : ℕ) : Row := { m.row d arrayBase r with index := [] }

/-- The id that slot `v` of request `r` holds. -/
def idOf (d : Sizes) (m : Tables) (r v : ℕ) : ℤ := read (m.row d arrayBase r).slotToIndex v

/-- The element of the index that a kernel clears for an id in a slot of request `r`. -/
def kernelElement (d : Sizes) (plus : ℕ → ℕ → ℕ) (r : ℕ) (id : ℤ) : ℕ :=
  plus (kernelBase d.INDEX_SIZE r) (u32 id)

def cleared (names : Finset ℕ) (index : ℕ → ℤ) : ℕ → ℤ := fun a =>
  if a ∈ names then NOT_FOUND else index a

theorem cleared_empty (index : ℕ → ℤ) : cleared ∅ index = index := by
  funext a
  exact if_neg (Finset.notMem_empty a)

theorem cleared_cleared (names names' : Finset ℕ) (index : ℕ → ℤ) :
    cleared names (cleared names' index) = cleared (names ∪ names') index := by
  funext a
  unfold cleared
  by_cases h : a ∈ names
  · rw [if_pos h, if_pos (Finset.mem_union_left names' h)]
  · rw [if_neg h]
    by_cases h' : a ∈ names'
    · rw [if_pos h', if_pos (Finset.mem_union_right names h')]
    · rw [if_neg h', if_neg (by rw [Finset.mem_union]; exact fun hor => hor.elim h h')]

theorem update_cleared (names : Finset ℕ) (index : ℕ → ℤ) (a : ℕ) :
    update (cleared names index) a NOT_FOUND = cleared (insert a names) index := by
  funext b
  unfold cleared
  by_cases hb : b = a
  · rw [hb, Function.update_self, if_pos (Finset.mem_insert_self a names)]
  · rw [Function.update_of_ne hb]
    simp only [Finset.mem_insert, hb, false_or]

section

variable (d : Sizes) (plus : ℕ → ℕ → ℕ) (m : Tables) (r : ℕ)

/-- The elements of the index that the slots `vs` of request `r` name. -/
def namedBy (vs : List ℕ) : Finset ℕ := (vs.map fun v => kernelElement d plus r (idOf d m r v)).toFinset

/-- The tables after the slots `vs` of request `r` have been taken back. -/
def takenTables (vs : List ℕ) : Tables where
  index := cleared (namedBy d plus m r vs) m.index
  slotToIndex := putWindow m.slotToIndex (arrayBase d.SLOT_COUNT r)
    (evictAll (m.slotRow d r) vs).slotToIndex
  freeSlots := putWindow m.freeSlots (arrayBase d.FREE_SLOT_COUNT r)
    (evictAll (m.slotRow d r) vs).freeSlots
  freeHead := m.freeHead
  query := m.query
  slotOut := m.slotOut

end

section

variable {d : Sizes} {plus : ℕ → ℕ → ℕ} {n r fuel : ℕ} {seed : UInt32} {m : Tables}
  {words : ProtectedSlots} {start : ℕ}

theorem takenTables_nil : takenTables d plus m r [] = m := by
  unfold takenTables
  ext a
  · exact congrFun (cleared_empty m.index) a
  · exact congrFun (putWindow_window _ _ _) a
  · exact congrFun (putWindow_window _ _ _) a
  · rfl
  · rfl
  · rfl

/-- What the walk takes from the slots of request `r`. -/
def Takes (d : Sizes) (m : Tables) (r slot : ℕ) : Prop :=
  idOf d m r slot ≠ NOT_FOUND ∧ (slot : ℤ) ∉ m.queryRow d arrayBase r

instance (d : Sizes) (m : Tables) (r : ℕ) : DecidablePred (Takes d m r) :=
  fun _ => inferInstanceAs (Decidable (_ ∧ _))

/-- The state of the walk after `k` turns. -/
def walkState (d : Sizes) (plus : ℕ → ℕ → ℕ) (m : Tables) (r start k : ℕ) : TablesWalk where
  slot := (start + k) % d.SLOT_COUNT
  head := m.freeHead r - (found d.SLOT_COUNT start (Takes d m r) k).length
  tables := takenTables d plus m r (found d.SLOT_COUNT start (Takes d m r) k)

/-- Taking slots back leaves the slot table as long as it is. -/
theorem length_slots_evictAll (vs : List ℕ) :
    (evictAll (m.slotRow d r) vs).slotToIndex.length = d.SLOT_COUNT :=
  (evictAll_lengths _ vs).2.1.trans (rowLengths_row m arrayBase).slot

/-- So with the free list. -/
theorem length_free_evictAll (vs : List ℕ) :
    (evictAll (m.slotRow d r) vs).freeSlots.length = d.FREE_SLOT_COUNT :=
  (evictAll_lengths _ vs).2.2.trans (rowLengths_row m arrayBase).free

/-- A slot that has been taken back is empty by now; the others hold what they held. -/
theorem read_evictAll {vs : List ℕ} (hvs : ∀ v ∈ vs, v < d.SLOT_COUNT) (slot : ℕ) :
    read (evictAll (m.slotRow d r) vs).slotToIndex slot =
      if slot ∈ vs then NOT_FOUND else idOf d m r slot := by
  refine evictAll_slot (fun v hv => ?_) slot
  rw [Tables.slotRow, (rowLengths_row m arrayBase).slot]
  exact hvs v hv

/-- With one slot more, one element more is named. -/
theorem namedBy_concat (vs : List ℕ) (slot : ℕ) : namedBy d plus m r (vs ++ [slot]) =
    insert (kernelElement d plus r (idOf d m r slot)) (namedBy d plus m r vs) := by
  unfold namedBy
  ext a
  simp [eq_comm]

/-- The guard of the walk, on a slot that still holds what it held: the bitmap has the slots of the
last query. -/
theorem guard_iff_takes {slot : ℕ}
    (htest : WordBitmap.test words slot = decide ((slot : ℤ) ∈ m.queryRow d arrayBase r)) :
    idOf d m r slot ≠ NOT_FOUND ∧ WordBitmap.test words slot = false ↔ Takes d m r slot := by
  rw [htest, decide_eq_false_iff_not]
  exact Iff.rfl

/-- A turn at a slot that has been taken, or that is not to be taken: the walk goes on to the next
slot. -/
theorem tablesTurn_pass (hadd : Adds plus) (hr : r < n) (hfit : SlotsFit d r) {vs : List ℕ} {slot : ℕ}
    (htest : WordBitmap.test words slot = decide ((slot : ℤ) ∈ m.queryRow d arrayBase r))
    (hvs : ∀ v ∈ vs, v < d.SLOT_COUNT) (hslot : slot < d.SLOT_COUNT)
    (hno : ¬ (slot ∉ vs ∧ Takes d m r slot)) (head : ℤ) :
    tablesTurn d plus n r words ⟨slot, head, takenTables d plus m r vs⟩ =
      .ok ⟨next d.SLOT_COUNT slot, head, takenTables d plus m r vs⟩ := by
  unfold tablesTurn
  dsimp only [takenTables]
  rw [loadElement_window hadd hr hfit.slot m.slotToIndex (length_slots_evictAll vs) hslot,
    read_evictAll hvs]
  simp only [bind, Except.bind, pure, Except.pure]
  by_cases hmem : slot ∈ vs
  · -- it has been taken, and is empty now
    rw [if_pos hmem, if_neg fun h => h.1 rfl]
  · -- nobody has taken it, but it is empty or protected
    rw [if_neg hmem, if_neg fun h => hno ⟨hmem, (guard_iff_takes htest).mp h⟩]

/-- A turn at a slot that is to be taken. What decides is whether the element of the index that its
id names lies in the buffer. -/
theorem tablesTurn_take (hadd : Adds plus) (hd : d.Fits) (hr : r < n) (hfit : SlotsFit d r)
    {vs : List ℕ} {slot : ℕ}
    (htest : WordBitmap.test words slot = decide ((slot : ℤ) ∈ m.queryRow d arrayBase r))
    (hvs : ∀ v ∈ vs, v < d.SLOT_COUNT) (hslot : slot < d.SLOT_COUNT)
    (hhead : m.freeHead r ≤ d.FREE_SLOT_COUNT) (hmore : (vs.length : ℤ) < m.freeHead r)
    (hmem : slot ∉ vs) (hp : Takes d m r slot) :
    tablesTurn d plus n r words ⟨slot, m.freeHead r - vs.length, takenTables d plus m r vs⟩ =
      if kernelElement d plus r (idOf d m r slot) < n * d.INDEX_SIZE then
        .ok ⟨next d.SLOT_COUNT slot, m.freeHead r - (vs ++ [slot]).length,
          takenTables d plus m r (vs ++ [slot])⟩
      else .error .outside := by
  have hi32 := hd.slot_i32
  have hf32 := hd.free_i32
  unfold tablesTurn
  dsimp only [takenTables]
  rw [loadElement_window hadd hr hfit.slot m.slotToIndex (length_slots_evictAll vs) hslot,
    read_evictAll hvs, if_neg hmem]
  simp only [bind, Except.bind, pure, Except.pure]
  rw [if_pos ((guard_iff_takes htest).mpr hp),
    storeElement_window hadd hr hfit.slot m.slotToIndex (length_slots_evictAll vs) hslot]
  dsimp only
  by_cases hin : kernelElement d plus r (idOf d m r slot) < n * d.INDEX_SIZE
  · have hstore : storeElement (cleared (namedBy d plus m r vs) m.index) (n * d.INDEX_SIZE)
        (plus (kernelBase d.INDEX_SIZE r) (u32 (idOf d m r slot))) NOT_FOUND =
        .ok (cleared (namedBy d plus m r (vs ++ [slot])) m.index) := by
      rw [namedBy_concat, ← update_cleared]
      exact if_pos hin
    -- the head is positive, so that the entry below it is one of the free list
    have htop : u32 (m.freeHead r - vs.length - 1) < d.FREE_SLOT_COUNT := by
      rw [u32_of_nonneg (by omega) (by omega)]
      omega
    rw [hstore]
    dsimp only
    rw [storeElement_window hadd hr hfit.free m.freeSlots (length_free_evictAll vs) htop,
      i32_of_lt (by omega) (by omega), if_pos hin, evictAll_concat, List.length_append,
      List.length_singleton]
    -- the counter of the walk agrees with the head of the row
    have hcount : (evictAll (m.slotRow d r) vs).freeHead = m.freeHead r - vs.length :=
      evictAll_freeHead _ _
    have htail : m.freeHead r - ((vs.length + 1 : ℕ) : ℤ) = m.freeHead r - vs.length - 1 := by
      omega
    dsimp only [evictSlot]
    rw [hcount, htail]
  · -- past the end of the buffer the store has no result
    have hstore : storeElement (cleared (namedBy d plus m r vs) m.index) (n * d.INDEX_SIZE)
        (plus (kernelBase d.INDEX_SIZE r) (u32 (idOf d m r slot))) NOT_FOUND = .error .outside :=
      if_neg hin
    rw [hstore, if_neg hin]

/-- One turn of the walk on the tables: it takes the slot if that is to be taken and has not been
taken, provided that its id names an element of the buffer. -/
theorem tablesTurn_spec (hadd : Adds plus) (hd : d.Fits) (hr : r < n) (hfit : SlotsFit d r)
    (htest : ∀ slot : ℕ, WordBitmap.test words slot = decide ((slot : ℤ) ∈ m.queryRow d arrayBase r))
    (hhead : m.freeHead r ≤ d.FREE_SLOT_COUNT) (k : ℕ)
    (hmore : ((found d.SLOT_COUNT start (Takes d m r) k).length : ℤ) < m.freeHead r) :
    tablesTurn d plus n r words (walkState d plus m r start k) =
      if (start + k) % d.SLOT_COUNT ∉ found d.SLOT_COUNT start (Takes d m r) k ∧
          Takes d m r ((start + k) % d.SLOT_COUNT) ∧
          ¬ kernelElement d plus r (idOf d m r ((start + k) % d.SLOT_COUNT)) < n * d.INDEX_SIZE
        then .error .outside
      else .ok (walkState d plus m r start (k + 1)) := by
  have hslot : (start + k) % d.SLOT_COUNT < d.SLOT_COUNT := Nat.mod_lt _ hd.slot_pos
  have hvs : ∀ v ∈ found d.SLOT_COUNT start (Takes d m r) k, v < d.SLOT_COUNT :=
    fun v hv => (mem_found hd.slot_pos hv).1
  -- the wrapping index has come to the slot of this turn
  have hnext : next d.SLOT_COUNT ((start + k) % d.SLOT_COUNT) = (start + (k + 1)) % d.SLOT_COUNT :=
    next_mod hd.slot_pos _
  -- either the slot is found now, or the list stays as it is
  have hsucc : found d.SLOT_COUNT start (Takes d m r) (k + 1) =
      found d.SLOT_COUNT start (Takes d m r) k ++ _ := found_succ hd.slot_pos k
  unfold walkState
  by_cases hnew : (start + k) % d.SLOT_COUNT ∉ found d.SLOT_COUNT start (Takes d m r) k ∧
      Takes d m r ((start + k) % d.SLOT_COUNT)
  · rw [if_pos hnew] at hsucc
    rw [tablesTurn_take hadd hd hr hfit (htest _) hvs hslot hhead hmore hnew.1 hnew.2, hsucc, ← hnext]
    by_cases hin : kernelElement d plus r (idOf d m r ((start + k) % d.SLOT_COUNT)) < n * d.INDEX_SIZE
    · rw [if_pos hin, if_neg fun h => h.2.2 hin]
    · rw [if_neg hin, if_pos ⟨hnew.1, hnew.2, hin⟩]
  · rw [if_neg hnew, List.append_nil] at hsucc
    rw [tablesTurn_pass hadd hr hfit (htest _) hvs hslot hnew, hsucc, ← hnext,
      if_neg fun h => hnew ⟨h.1, h.2.1⟩]

/-- The kernels' `while` is a sweep over the slots. -/
theorem tablesWalk_eq_sweep (c : TablesWalk) : tablesWalk d plus n r words fuel c =
    sweep (fun c : TablesWalk => c.head > 0) (tablesTurn d plus n r words) .outOfFuel fuel c := by
  induction fuel generalizing c with
  | zero => rfl
  | succ fuel ih =>
      unfold tablesWalk sweep
      rw [funext ih]

/-- The walk on the tables is a sweep over the slots, in which a slot is no good if its id names
no element of the buffer. -/
theorem sweeps_tables (hadd : Adds plus) (hd : d.Fits) (hr : r < n) (hfit : SlotsFit d r)
    (htest : ∀ slot : ℕ, WordBitmap.test words slot = decide ((slot : ℤ) ∈ m.queryRow d arrayBase r))
    (hhead : m.freeHead r ≤ d.FREE_SLOT_COUNT) :
    Sweeps d.SLOT_COUNT start (Takes d m r)
      (fun v => kernelElement d plus r (idOf d m r v) < n * d.INDEX_SIZE) (m.freeHead r).toNat
      (fun c : TablesWalk => c.head > 0) (tablesTurn d plus n r words) .outside
      (walkState d plus m r start) := by
  refine Sweeps.of_turn hd.slot_pos (fun k => ?_) fun k hmore _ =>
    tablesTurn_spec hadd hd hr hfit htest hhead k (by omega)
  dsimp only [walkState]
  omega

/-- The slots that are taken back are the first that the sweep finds, as many as the head says. -/
theorem takenBack_eq (d : Sizes) (seed : UInt32) (m : Tables) (r : ℕ) :
    takenBack d seed m r = (found d.SLOT_COUNT (walkStart d seed (UInt32.ofNat r)) (Takes d m r)
      d.SLOT_COUNT).take (m.freeHead r).toNat := by
  unfold takenBack unprotected found
  rw [Nat.min_self]
  rfl

/-- A request that has nothing to take back. -/
theorem takenBack_of_nonpos (d : Sizes) (seed : UInt32) {m : Tables} {r : ℕ} (h : m.freeHead r ≤ 0) :
    takenBack d seed m r = [] := by
  unfold takenBack
  rw [Int.toNat_of_nonpos h, List.take_zero]

/-! ## The pass of a request -/

/-- A bitmap of the kernel's size. -/
abbrev Bitmap (d : Sizes) (words : ProtectedSlots) : Prop := words.length = PROTECTED_WORD_COUNT d

/-- Clearing leaves nothing of what the bitmap held before. -/
theorem clearLoop_eq {protectedSlots : ProtectedSlots} (h : Bitmap d protectedSlots) :
    clearLoop d protectedSlots = clearProtectedSlots d := by
  have key : ∀ n ≤ protectedSlots.length,
      (List.range n).foldl (fun words i => words.set i 0) protectedSlots =
        List.replicate n 0 ++ protectedSlots.drop n := by
    intro n
    induction n with
    | zero => exact fun _ => rfl
    | succ n ih =>
        intro hn
        rw [List.range_succ, List.foldl_append, ih (Nat.le_of_succ_le hn), List.foldl_cons,
          List.foldl_nil, List.set_append_right _ _ (by rw [List.length_replicate]),
          List.length_replicate, Nat.sub_self, List.drop_eq_getElem_cons hn, List.set_cons_zero,
          List.replicate_succ', List.append_assoc, List.singleton_append]
  unfold clearLoop clearProtectedSlots
  rw [← h, key _ le_rfl, List.drop_length, List.append_nil]

/-- A mark keeps the number of words. -/
theorem markProtectedSlot_length {words words' : ProtectedSlots} {slot : ℤ}
    (h : markProtectedSlot words slot = .ok words') : words'.length = words.length := by
  unfold markProtectedSlot at h
  dsimp only at h
  split_ifs at h
  cases h
  exact WordBitmap.mark_length _ _

/-- The last query slots, all of them slots. -/
def QueriesAreSlots (d : Sizes) (n : ℕ) (m : Tables) : Prop :=
  ∀ a < n * d.QUERY_COUNT, 0 ≤ m.query a ∧ m.query a < d.SLOT_COUNT

/-- The last query of a request names slots. -/
theorem QueriesAreSlots.row (h : QueriesAreSlots d n m) (hr : r < n) :
    ∀ z ∈ m.queryRow d arrayBase r, 0 ≤ z ∧ z < d.SLOT_COUNT := by
  intro z hz
  obtain ⟨i, hi, rfl⟩ := List.mem_map.mp hz
  exact h _ (element_lt hr (List.mem_range.mp hi))

/-- Whatever the bitmap held, marking goes through, from wherever the slots are read. -/
theorem marking_ends (hadd : Adds plus) (hd : d.Fits) (hr : r < n) (hq : QueriesAreSlots d n m)
    (hwords : Bitmap d words) :
    ∃ marked : ProtectedSlots, Bitmap d marked ∧
      (List.range d.QUERY_COUNT).foldlM (fun words i => do
        markProtectedSlot words (← loadElement m.query (n * d.QUERY_COUNT)
          (plus (kernelBase d.QUERY_COUNT r) i))) (clearLoop d words) = .ok marked := by
  have hi32 := hd.slot_i32
  -- the bitmap keeps its length, mark by mark
  obtain ⟨marked, hmarked, hlen⟩ := Folds.foldlM_prefix (f := fun words i => do
      markProtectedSlot words (← loadElement m.query (n * d.QUERY_COUNT)
        (plus (kernelBase d.QUERY_COUNT r) i)))
    (fun _ words => Bitmap d words) (List.range d.QUERY_COUNT) (s := clearLoop d words)
    (by
      rw [clearLoop_eq hwords]
      exact List.length_replicate) (by
      intro pre i suf words hsplit hwl
      have hi : i < d.QUERY_COUNT := by
        rw [← List.mem_range, hsplit]
        exact List.mem_append_right pre List.mem_cons_self
      -- the query is read at or before its place in the flat table
      have hbase : kernelBase d.QUERY_COUNT r ≤ arrayBase d.QUERY_COUNT r := by
        unfold kernelBase arrayBase u32
        omega
      have hle := hadd.le (kernelBase d.QUERY_COUNT r) i
      have hlt := element_lt hr hi
      have hin : plus (kernelBase d.QUERY_COUNT r) i < n * d.QUERY_COUNT := by omega
      -- whatever query this is, it names a slot, and the bitmap has a bit for it
      obtain ⟨h0, h1⟩ := hq _ hin
      have hword : u32 (m.query (plus (kernelBase d.QUERY_COUNT r) i)) / PROTECTED_WORD_BITS <
          words.length := by
        rw [hwl, u32_of_nonneg h0 (by omega), PROTECTED_WORD_COUNT, PROTECTED_WORD_BITS]
        omega
      refine ⟨WordBitmap.mark words (u32 (m.query (plus (kernelBase d.QUERY_COUNT r) i))), ?_, ?_⟩
      · unfold loadElement
        rw [if_pos hin]
        exact if_pos hword
      · rw [Bitmap, WordBitmap.mark_length]
        exact hwl)
  exact ⟨marked, hlen, hmarked⟩

/-- Read off the request's own row, they are the slots that are protected. -/
theorem marking_spec (hadd : Adds plus) (hd : d.Fits) (hr : r < n) (hfit : RowFits d.QUERY_COUNT r)
    (hq : QueriesAreSlots d n m) (hwords : Bitmap d words) :
    ∃ marked : ProtectedSlots, Bitmap d marked ∧
      (List.range d.QUERY_COUNT).foldlM (fun words i => do
        markProtectedSlot words (← loadElement m.query (n * d.QUERY_COUNT)
          (plus (kernelBase d.QUERY_COUNT r) i))) (clearLoop d words) = .ok marked ∧
      ∀ slot : ℕ, WordBitmap.test marked slot = decide ((slot : ℤ) ∈ m.queryRow d arrayBase r) := by
  obtain ⟨marked, hlen, hmarked⟩ := marking_ends hadd hd hr hq hwords
  obtain ⟨marked', hmarked', htest⟩ := markProtectedSlots_spec (length_window _ _ _) hd (hq.row hr)
  have hsame := hmarked
  rw [marked_eq hadd hr hfit, clearLoop_eq hwords] at hsame
  have heq : marked = marked' := Except.ok.inj (hsame.symm.trans hmarked')
  exact ⟨marked, hlen, hmarked, heq ▸ htest⟩

/-- The tables after the pass of request `r`. -/
def afterRequest (d : Sizes) (plus : ℕ → ℕ → ℕ) (seed : UInt32) (m : Tables) (r : ℕ) : Tables :=
  { takenTables d plus m r (takenBack d seed m r) with
    freeHead := update m.freeHead r (m.freeHead r - (takenBack d seed m r).length) }

/-- A request that has nothing to take back changes nothing. -/
theorem afterRequest_idle (h : m.freeHead r ≤ 0) : afterRequest d plus seed m r = m := by
  unfold afterRequest
  rw [takenBack_of_nonpos d seed h, takenTables_nil, List.length_nil, Int.ofNat_zero, Int.sub_zero,
    Function.update_eq_self]

/-- A request with nothing to take back is passed over, wherever its rows are. -/
theorem maintainRequest_idle (fuel : ℕ) (seed : UInt32) (hadd : Adds plus) (hd : d.Fits) (hr : r < n) (hq : QueriesAreSlots d n m)
    (hwords : Bitmap d words) (h : m.freeHead r ≤ 0) :
    ∃ words', Bitmap d words' ∧ maintainRequest d plus fuel seed n (words, m) r = .ok (words', m) := by
  have hload : loadElement m.freeHead n r = .ok (m.freeHead r) := if_pos hr
  have hstore : storeElement m.freeHead n r (m.freeHead r) = .ok m.freeHead := by
    unfold storeElement
    rw [if_pos hr, Function.update_eq_self]
  unfold maintainRequest
  dsimp only
  rw [hload]
  simp only [bind, Except.bind, pure, Except.pure]
  split_ifs with hzero
  · exact ⟨words, hwords, rfl⟩
  · obtain ⟨marked, hlen, hmarked⟩ := marking_ends hadd hd hr hq hwords
    have hnot : ¬ m.freeHead r > 0 := by omega
    refine ⟨marked, hlen, ?_⟩
    simp only [bind, Except.bind] at hmarked
    rw [hmarked]
    dsimp only
    have hwalk : tablesWalk d plus n r marked fuel
        ⟨(hash32 (seed ^^^ UInt32.ofNat r)).toNat % d.SLOT_COUNT, m.freeHead r, m⟩ =
        .ok ⟨(hash32 (seed ^^^ UInt32.ofNat r)).toNat % d.SLOT_COUNT, m.freeHead r, m⟩ := by
      cases fuel with
      | zero => exact if_neg hnot
      | succ fuel => exact if_neg hnot
    rw [hwalk]
    dsimp only
    rw [hstore]

/-- A request whose slots, free list and queries 32 bits address. -/
structure Reachable (d : Sizes) (n : ℕ) (m : Tables) (r : ℕ) : Prop where
  lt : r < n
  fit : SlotsFit d r
  queries : QueriesAreSlots d n m
  head : m.freeHead r ≤ d.FREE_SLOT_COUNT

/-- The pass of a request, up to the walk. -/
theorem maintainRequest_eq_walk (hadd : Adds plus) (hd : d.Fits) (h : Reachable d n m r)
    (hwords : Bitmap d words) (hpos : 0 < m.freeHead r) :
    ∃ marked : ProtectedSlots, Bitmap d marked ∧
      (∀ slot : ℕ, WordBitmap.test marked slot = decide ((slot : ℤ) ∈ m.queryRow d arrayBase r)) ∧
      ∀ fuel, maintainRequest d plus fuel seed n (words, m) r =
        (tablesWalk d plus n r marked fuel (walkState d plus m r (walkStart d seed (UInt32.ofNat r)) 0)
          >>= fun c => storeElement c.tables.freeHead n r c.head >>= fun freeHead =>
            .ok (marked, { c.tables with freeHead := freeHead })) := by
  obtain ⟨marked, hlen, hmarked, htest⟩ := marking_spec hadd hd h.lt h.fit.query h.queries hwords
  refine ⟨marked, hlen, htest, fun fuel => ?_⟩
  have hload : loadElement m.freeHead n r = .ok (m.freeHead r) := if_pos h.lt
  have hstart : walkState d plus m r (walkStart d seed (UInt32.ofNat r)) 0 =
      ⟨(hash32 (seed ^^^ UInt32.ofNat r)).toNat % d.SLOT_COUNT, m.freeHead r, m⟩ := by
    unfold walkState
    rw [found_zero, takenTables_nil, Nat.add_zero, Nat.mod_eq_of_lt (walkStart_lt hd _ _),
      List.length_nil, Int.ofNat_zero, Int.sub_zero]
    rfl
  unfold maintainRequest
  dsimp only
  rw [hload, hstart]
  simp only [bind, Except.bind, pure, Except.pure]
  rw [if_neg (by omega)]
  simp only [bind, Except.bind] at hmarked
  rw [hmarked]

/-- **Where the pass of a request ends**, it has found enough slots, their ids have named elements
of the buffer, and it has taken them back. -/
theorem maintainRequest_ok (hadd : Adds plus) (hd : d.Fits) (h : Reachable d n m r)
    (hwords : Bitmap d words) (hpos : 0 < m.freeHead r) {s : ProtectedSlots × Tables}
    (hrun : maintainRequest d plus fuel seed n (words, m) r = .ok s) :
    Bitmap d s.1 ∧
      (∀ v ∈ takenBack d seed m r, kernelElement d plus r (idOf d m r v) < n * d.INDEX_SIZE) ∧
      s.2 = afterRequest d plus seed m r := by
  obtain ⟨marked, hlen, htest, heq⟩ := maintainRequest_eq_walk hadd hd h hwords hpos
  rw [heq, tablesWalk_eq_sweep] at hrun
  obtain ⟨c, hsweep, hrun⟩ := Folds.ok_of_bind hrun
  obtain ⟨_, hgood, k, hfound, rfl⟩ := (sweeps_tables hadd hd h.lt h.fit htest h.head).ok hsweep
  rw [← takenBack_eq] at hgood hfound
  have hstore : storeElement (walkState d plus m r (walkStart d seed (UInt32.ofNat r)) k).tables.freeHead
      n r (walkState d plus m r (walkStart d seed (UInt32.ofNat r)) k).head =
      .ok (update m.freeHead r (m.freeHead r - (takenBack d seed m r).length)) := by
    unfold walkState
    rw [hfound]
    exact if_pos h.lt
  rw [hstore] at hrun
  cases hrun
  refine ⟨hlen, hgood, ?_⟩
  unfold walkState afterRequest
  rw [hfound]

/-- **The pass of a request**, with enough slots whose ids name elements of the buffer. -/
theorem maintainRequest_spec (hadd : Adds plus) (hd : d.Fits) (h : Reachable d n m r)
    (hwords : Bitmap d words) (hpos : 0 < m.freeHead r)
    (henough : (takenBack d seed m r).length = (m.freeHead r).toNat)
    (hgood : ∀ v ∈ takenBack d seed m r, kernelElement d plus r (idOf d m r v) < n * d.INDEX_SIZE)
    (hfuel : d.SLOT_COUNT ≤ fuel) :
    ∃ words', Bitmap d words' ∧
      maintainRequest d plus fuel seed n (words, m) r = .ok (words', afterRequest d plus seed m r) := by
  obtain ⟨marked, hlen, htest, heq⟩ := maintainRequest_eq_walk hadd hd h hwords hpos
  rw [takenBack_eq, List.length_take] at henough
  rw [takenBack_eq] at hgood
  obtain ⟨k, hfound, hsweep⟩ := (sweeps_tables hadd hd h.lt h.fit htest h.head).ends
    .outOfFuel (by omega) hgood hfuel
  rw [← takenBack_eq] at hfound
  refine ⟨marked, hlen, ?_⟩
  rw [heq, tablesWalk_eq_sweep, hsweep]
  have hstore : storeElement (walkState d plus m r (walkStart d seed (UInt32.ofNat r)) k).tables.freeHead
      n r (walkState d plus m r (walkStart d seed (UInt32.ofNat r)) k).head =
      .ok (update m.freeHead r (m.freeHead r - (takenBack d seed m r).length)) := by
    unfold walkState
    rw [hfound]
    exact if_pos h.lt
  show (storeElement _ n r _ >>= fun freeHead => _) = _
  rw [hstore]
  unfold walkState afterRequest
  rw [hfound]
  rfl

end

/-! ## All requests -/

section

variable (d : Sizes) (plus : ℕ → ℕ → ℕ) (seed : UInt32) (m : Tables) (done : Finset ℕ)

/-- The elements of the index that the requests in `done` name. -/
def named : Finset ℕ := done.biUnion fun r => namedBy d plus m r (takenBack d seed m r)

/-- A request's row, with its slots taken back. -/
def takenRow (r : ℕ) : Row := evictAll (m.slotRow d r) (takenBack d seed m r)

/-- The tables, with the slots of some requests taken back. -/
def takenAll : Tables where
  index := cleared (named d plus seed m done) m.index
  slotToIndex := replaced d.SLOT_COUNT (fun r => (takenRow d seed m r).slotToIndex) done m.slotToIndex
  freeSlots := replaced d.FREE_SLOT_COUNT (fun r => (takenRow d seed m r).freeSlots) done m.freeSlots
  freeHead := fun a => if a ∈ done then m.freeHead a - (takenBack d seed m a).length else m.freeHead a
  query := m.query
  slotOut := m.slotOut

end

section

variable {d : Sizes} {plus : ℕ → ℕ → ℕ} {n r fuel : ℕ} {seed : UInt32} {m : Tables}
  {done : Finset ℕ}

theorem takenAll_empty : takenAll d plus seed m ∅ = m := by
  unfold takenAll named
  rw [Finset.biUnion_empty, cleared_empty, replaced_empty, replaced_empty]
  simp only [Finset.notMem_empty, if_false]

/-- The lists of a row keep their lengths. -/
theorem takenRow_lengths (r : ℕ) : (takenRow d seed m r).slotToIndex.length = d.SLOT_COUNT ∧
    (takenRow d seed m r).freeSlots.length = d.FREE_SLOT_COUNT := by
  obtain ⟨_, hslot, hfree⟩ := evictAll_lengths (m.slotRow d r) (takenBack d seed m r)
  exact ⟨hslot.trans (rowLengths_row m arrayBase).slot, hfree.trans (rowLengths_row m arrayBase).free⟩

/-- A request that is still to come finds its slots as they were. -/
theorem takenAll_slotRow (hr : r ∉ done) :
    (takenAll d plus seed m done).slotRow d r = m.slotRow d r := by
  unfold Tables.slotRow Tables.row takenAll
  simp only [window_replaced hr, if_neg hr]

/-- A request that is still to come has its slot table as it was at the start. -/
theorem takenAll_slots (hr : r ∉ done) :
    ((takenAll d plus seed m done).row d arrayBase r).slotToIndex =
      (m.row d arrayBase r).slotToIndex := by
  unfold Tables.row takenAll
  dsimp only
  exact window_replaced hr

/-- It has its head as it was. -/
theorem takenAll_freeHead (hr : r ∉ done) : (takenAll d plus seed m done).freeHead r = m.freeHead r :=
  if_neg hr

/-- And the ids in its slots. -/
theorem takenAll_idOf (hr : r ∉ done) (v : ℕ) :
    idOf d (takenAll d plus seed m done) r v = idOf d m r v := by
  unfold idOf
  rw [takenAll_slots hr]

/-- So it takes back the slots that it would have taken back at the start. -/
theorem takenAll_takenBack (hr : r ∉ done) :
    takenBack d seed (takenAll d plus seed m done) r = takenBack d seed m r := by
  unfold takenBack unprotected
  rw [takenAll_slots hr, takenAll_freeHead hr]
  rfl

/-- One more request. -/
theorem afterRequest_takenAll (hr : r ∉ done) :
    afterRequest d plus seed (takenAll d plus seed m done) r = takenAll d plus seed m (insert r done) := by
  obtain ⟨hslot, hfree⟩ : (takenRow d seed m r).slotToIndex.length = d.SLOT_COUNT ∧
      (takenRow d seed m r).freeSlots.length = d.FREE_SLOT_COUNT := takenRow_lengths r
  unfold afterRequest takenTables
  rw [takenAll_slotRow hr, takenAll_takenBack hr, takenAll_freeHead hr]
  ext a
  · have hnames : namedBy d plus (takenAll d plus seed m done) r (takenBack d seed m r) =
        namedBy d plus m r (takenBack d seed m r) := by
      unfold namedBy
      simp only [takenAll_idOf hr]
    show cleared (namedBy d plus (takenAll d plus seed m done) r (takenBack d seed m r))
      (cleared (named d plus seed m done) m.index) a = cleared (named d plus seed m (insert r done)) m.index a
    rw [hnames, cleared_cleared]
    unfold named
    rw [Finset.biUnion_insert]
  · exact congrFun (putWindow_replaced (fun r => (takenRow d seed m r).slotToIndex) hr hslot.le) a
  · exact congrFun (putWindow_replaced (fun r => (takenRow d seed m r).freeSlots) hr hfree.le) a
  · show update (takenAll d plus seed m done).freeHead r _ a = if a ∈ insert r done then _ else _
    by_cases ha : a = r
    · rw [ha, Function.update_self, if_pos (Finset.mem_insert_self r done)]
    · rw [Function.update_of_ne ha]
      simp only [Finset.mem_insert, ha, false_or]
      rfl
  · rfl
  · rfl

/-- The requests that have something to take back, their slots addressed as they should be. -/
structure Takeable (d : Sizes) (n : ℕ) (m : Tables) : Prop where
  queries : QueriesAreSlots d n m
  fit : ∀ r < n, 0 < m.freeHead r → SlotsFit d r
  head : ∀ r < n, m.freeHead r ≤ d.FREE_SLOT_COUNT

/-- What a pass needs of its tables, when some of the other requests have been served. -/
theorem Takeable.reachable (h : Takeable d n m) (hr : r < n) (hnot : r ∉ done)
    (hpos : 0 < m.freeHead r) : Reachable d n (takenAll d plus seed m done) r where
  lt := hr
  fit := h.fit r hr hpos
  queries := h.queries
  head := by
    show (if r ∈ done then _ else m.freeHead r) ≤ _
    rw [if_neg hnot]
    exact h.head r hr

/-- The ids in the slots that are taken back name elements of the buffer. -/
def NamesInside (d : Sizes) (plus : ℕ → ℕ → ℕ) (seed : UInt32) (n : ℕ) (m : Tables) : Prop :=
  ∀ r < n, ∀ v ∈ takenBack d seed m r, kernelElement d plus r (idOf d m r v) < n * d.INDEX_SIZE

/-- Enough slots can be taken back. -/
def Enough (d : Sizes) (seed : UInt32) (n : ℕ) (m : Tables) : Prop :=
  ∀ r < n, (takenBack d seed m r).length = (m.freeHead r).toNat

/-- **All requests**, in any order. -/
theorem serves_taken (hadd : Adds plus) (hd : d.Fits) (h : Takeable d n m) (henough : Enough d seed n m)
    (hin : NamesInside d plus seed n m) (hfuel : d.SLOT_COUNT ≤ fuel) :
    Serves (maintainRequest d plus fuel seed n) n (Bitmap d)
      fun done t => t = takenAll d plus seed m done := by
  constructor
  intro done shared words r hr hnot hshared hwords
  have hhead : (takenAll d plus seed m done).freeHead r = m.freeHead r := takenAll_freeHead hnot
  rw [hshared]
  by_cases hpos : 0 < m.freeHead r
  · obtain ⟨words', hwords', hrun⟩ : ∃ words', Bitmap d words' ∧
        maintainRequest d plus fuel seed n (words, takenAll d plus seed m done) r =
          .ok (words', afterRequest d plus seed (takenAll d plus seed m done) r) :=
      maintainRequest_spec hadd hd (h.reachable hr hnot hpos) hwords
      (by rw [hhead]; exact hpos) (by rw [takenAll_takenBack hnot, hhead]; exact henough r hr)
      (by
        rw [takenAll_takenBack hnot]
        intro v hv
        rw [takenAll_idOf hnot]
        exact hin r hr v hv) hfuel
    exact ⟨words', _, hrun, hwords', afterRequest_takenAll hnot⟩
  · have hidle : (takenAll d plus seed m done).freeHead r ≤ 0 := by rw [hhead]; omega
    obtain ⟨words', hwords', hrun⟩ := maintainRequest_idle fuel seed
      (m := takenAll d plus seed m done) hadd hd hr h.queries hwords hidle
    refine ⟨words', _, hrun, hwords', ?_⟩
    rw [← afterRequest_takenAll hnot, afterRequest_idle hidle]

/-- **A loop over the requests that has ended** has found every id in the buffer, and has taken back
the slots of all requests. -/
theorem loop_taken (hadd : Adds plus) (hd : d.Fits) (h : Takeable d n m)
    {words : ProtectedSlots} (hwords : Bitmap d words) {s : ProtectedSlots × Tables}
    (hrun : (List.range n).foldlM (maintainRequest d plus fuel seed n) (words, m) = .ok s) :
    NamesInside d plus seed n m ∧ s.2 = takenAll d plus seed m (Finset.range n) := by
  -- after `k` requests: those are served, and their ids have named elements of the buffer
  have key : ∀ k ≤ n, ∀ s, (List.range k).foldlM (maintainRequest d plus fuel seed n) (words, m) = .ok s →
      Bitmap d s.1 ∧ s.2 = takenAll d plus seed m (Finset.range k) ∧
      ∀ r < k, ∀ v ∈ takenBack d seed m r, kernelElement d plus r (idOf d m r v) < n * d.INDEX_SIZE := by
    intro k
    induction k with
    | zero =>
        intro _ s hs
        cases hs
        exact ⟨hwords, takenAll_empty.symm, fun r hr => absurd hr (Nat.not_lt_zero r)⟩
    | succ k ih =>
        -- the next request finds its slots, its ids and its head as they were at the start
        intro hk s hs
        rw [List.range_succ] at hs
        obtain ⟨⟨words', t⟩, hfirst, hlast⟩ := Folds.ok_of_foldlM_append hs
        obtain ⟨s', hturn, hend⟩ := Folds.ok_of_bind hlast
        cases hend
        obtain ⟨hwords', ht, hnames⟩ := ih (Nat.le_of_succ_le hk) _ hfirst
        dsimp only at hwords' ht
        have hnot : k ∉ Finset.range k := Finset.notMem_range_self
        have hhead : (takenAll d plus seed m (Finset.range k)).freeHead k = m.freeHead k :=
          takenAll_freeHead hnot
        rw [ht] at hturn
        rw [Finset.range_add_one, ← afterRequest_takenAll hnot]
        -- it takes back slots, and its pass says what they named
        by_cases hpos : 0 < m.freeHead k
        · obtain ⟨hlen, hgood, hafter⟩ := maintainRequest_ok hadd hd (h.reachable hk hnot hpos) hwords'
            (by rw [hhead]; exact hpos) hturn
          rw [takenAll_takenBack hnot] at hgood
          refine ⟨hlen, hafter, fun r hr v hv => ?_⟩
          rcases Nat.lt_succ_iff_lt_or_eq.mp hr with hlt | rfl
          · exact hnames r hlt v hv
          · rw [← takenAll_idOf hnot]
            exact hgood v hv
        -- or it has nothing to take back
        · have hidle : (takenAll d plus seed m (Finset.range k)).freeHead k ≤ 0 := by rw [hhead]; omega
          obtain ⟨words'', hlen, hpass⟩ := maintainRequest_idle fuel seed
            (m := takenAll d plus seed m (Finset.range k)) hadd hd hk h.queries hwords' hidle
          rw [hpass] at hturn
          cases hturn
          refine ⟨hlen, (afterRequest_idle hidle).symm, fun r hr v hv => ?_⟩
          rcases Nat.lt_succ_iff_lt_or_eq.mp hr with hlt | rfl
          · exact hnames r hlt v hv
          · rw [takenBack_of_nonpos d seed (by omega)] at hv
            exact absurd hv List.not_mem_nil
  obtain ⟨_, hafter, hnames⟩ := key n le_rfl s hrun
  exact ⟨hnames, hafter⟩

end

end AsuAscend.HbmIndex
