/-
The maintenance on the tables of all requests, element by element.

`MaintainEviction` goes through the requests with one bitmap on its stack, and each core
of `KernelAsuHbmIndexMaintain` through its own with a bitmap of its own; a bitmap is
cleared before it is used for a row. Both take the base of a row as a 32-bit product. The
host adds an element number to a pointer, so that the sum is not cut to 32 bits
(`pointerAdd`), while a core adds in `uint32_t` (`wordAdd`). The id of a token is cast to
`uint32_t` first: what `indexId` names is an element of the whole index buffer, which need
not lie in the request's own row.

## What is proved

Where the pass of `Maintain` goes through on a request's own row, so does the pass over the
tables, and it leaves that row in its place (`maintainRequest_of_serveRow`). What the pass
does where an id names an element of another row is the subject of `TakenBack`.

## Why the tables are flat

The other operators are modelled on rows that are cut out and written back. For the maintenance
this would decide too early what an id names: an id that is no index of the row, such as a
negative one, names an element that may lie in the row of another request, and the kernels write
there without an error. So the passes are modelled on the buffers, with the sums that the code
makes, and an access fails only where it leaves the buffer.
-/
import AsuAscend.HbmIndex.Launch
import AsuAscend.HbmIndex.MaintainScan

set_option autoImplicit false

open Function (update)
open MachineWords SentinelTable StrideCores CircularOrder

namespace AsuAscend.HbmIndex

/-! ## Elements of a buffer -/

/-- Element `a` of a buffer with `size` elements. -/
def loadElement (t : ℕ → ℤ) (size a : ℕ) : Except Halt ℤ :=
  if a < size then .ok (t a) else .error .outside

def storeElement (t : ℕ → ℤ) (size a : ℕ) (v : ℤ) : Except Halt (ℕ → ℤ) :=
  if a < size then .ok (update t a v) else .error .outside

/-- An element of a row on the host: `(t + base)[i]`. -/
def pointerAdd (base i : ℕ) : ℕ := base + i

/-- An element of a row on a core: `GetValue(base + i)` with a `uint32_t` sum. -/
def wordAdd (base i : ℕ) : ℕ := u32 (base + i : ℕ)

/-! ## The pass

One request: the bitmap is cleared, the last queries are marked in it, and the slots are walked.
The head is read once before the walk and written back after it. -/

/-- The variables of the walk: `head` is the local one, the tables are those in memory. -/
structure TablesWalk where
  slot : ℕ
  head : ℤ
  tables : Tables

section

variable (d : Sizes) (plus : ℕ → ℕ → ℕ)

/-- `ClearProtectedSlots` -/
def clearLoop (protectedSlots : ProtectedSlots) : ProtectedSlots :=
  (List.range (PROTECTED_WORD_COUNT d)).foldl (fun words i => words.set i 0) protectedSlots

section

variable (reqNum reqId : ℕ) (protectedSlots : ProtectedSlots)

/-- One turn of the walk over the slots of request `reqId`. -/
def tablesTurn (c : TablesWalk) : Except Halt TablesWalk := do
  let slotAt := plus (kernelBase d.SLOT_COUNT reqId) c.slot
  let indexId ← loadElement c.tables.slotToIndex (reqNum * d.SLOT_COUNT) slotAt
  if indexId ≠ NOT_FOUND ∧ WordBitmap.test protectedSlots c.slot = false then
    let slotToIndex ← storeElement c.tables.slotToIndex (reqNum * d.SLOT_COUNT) slotAt NOT_FOUND
    let index ← storeElement c.tables.index (reqNum * d.INDEX_SIZE)
      (plus (kernelBase d.INDEX_SIZE reqId) (u32 indexId)) NOT_FOUND
    let head := c.head - 1
    let freeSlots ← storeElement c.tables.freeSlots (reqNum * d.FREE_SLOT_COUNT)
      (plus (kernelBase d.FREE_SLOT_COUNT reqId) (u32 head)) (i32 c.slot)
    return ⟨next d.SLOT_COUNT c.slot, head,
      { c.tables with slotToIndex := slotToIndex, index := index, freeSlots := freeSlots }⟩
  else return ⟨next d.SLOT_COUNT c.slot, c.head, c.tables⟩

/-- The walk, cut off after `fuel` turns. -/
def tablesWalk : ℕ → TablesWalk → Except Halt TablesWalk
  | 0, c => if c.head > 0 then .error .outOfFuel else .ok c
  | fuel + 1, c =>
      if c.head > 0 then tablesTurn d plus reqNum reqId protectedSlots c >>= tablesWalk fuel
      else .ok c

end

/-- The body of the loop over the requests. The bitmap lives on from one to the next. -/
def maintainRequest (fuel : ℕ) (seed : UInt32) (reqNum : ℕ) (s : ProtectedSlots × Tables) (reqId : ℕ) :
    Except Halt (ProtectedSlots × Tables) := do
  let m := s.2
  let head ← loadElement m.freeHead reqNum reqId
  if head = 0 then return s
  else
    let start := (hash32 (seed ^^^ UInt32.ofNat reqId)).toNat % d.SLOT_COUNT
    let protectedSlots ← (List.range d.QUERY_COUNT).foldlM (fun words i => do
      markProtectedSlot words (← loadElement m.query (reqNum * d.QUERY_COUNT)
        (plus (kernelBase d.QUERY_COUNT reqId) i))) (clearLoop d s.1)
    let c ← tablesWalk d plus reqNum reqId protectedSlots fuel ⟨start, head, m⟩
    let freeHead ← storeElement c.tables.freeHead reqNum reqId c.head
    return (protectedSlots, { c.tables with freeHead := freeHead })

/-- `MaintainEviction`; the bitmap is not initialised. -/
def maintainEviction (fuel : ℕ) (seed : UInt32) (reqNum : ℕ) (protectedSlots : ProtectedSlots)
    (m : Tables) : Except Halt Tables := do
  let (_, m) ← (List.range reqNum).foldlM (maintainRequest d pointerAdd fuel seed reqNum)
    (protectedSlots, m)
  return m

/-- `asu_hbm_index_maintain` on `blockNum` cores, whose turns come in the order of the
schedule. -/
def maintainKernel (fuel : ℕ) (seed : UInt32) (reqNum blockNum : ℕ)
    (protectedSlots : ℕ → ProtectedSlots) (schedule : List ℕ) (m : Tables) :
    Except Halt (Machine Tables ProtectedSlots) :=
  run (maintainRequest d wordAdd fuel seed reqNum) reqNum blockNum (start m protectedSlots) schedule

/-- The same body on a row of its own, where `indexId` names an element of the row. -/
def maintainOp (fuel : ℕ) (seed : UInt32) : RowOp ProtectedSlots :=
  fun protectedSlots reqId lastQuerySlots row =>
    if row.freeHead = 0 then .ok (protectedSlots, [], row)
    else do
      let start := (hash32 (seed ^^^ UInt32.ofNat reqId)).toNat % d.SLOT_COUNT
      let protectedSlots ← (List.range d.QUERY_COUNT).foldlM (fun words i => do
        markProtectedSlot words (← getValue lastQuerySlots i)) (clearLoop d protectedSlots)
      let row ← walk d protectedSlots fuel ⟨start, row⟩
      return (protectedSlots, [], row)

end

/-! ## Rows that 32 bits address -/

/-- A sum that is what it should be as long as it fits into 32 bits, and never more. -/
structure Adds (plus : ℕ → ℕ → ℕ) : Prop where
  exact : ∀ base i, base + i < 2 ^ 32 → plus base i = base + i
  le : ∀ base i, plus base i ≤ base + i

/-- The host adds on pointers of 64 bits, which do not wrap here. -/
theorem adds_pointerAdd : Adds pointerAdd := ⟨fun _ _ _ => rfl, fun _ _ => le_rfl⟩

/-- The kernel adds in 32 bits, which is exact as long as the sum fits. -/
theorem adds_wordAdd : Adds wordAdd where
  exact := fun _ _ h => u32_natCast h
  le := fun base i => by
    unfold wordAdd u32
    omega

/-- The elements of row `r` of a table whose rows have `len` elements. -/
def RowFits (len r : ℕ) : Prop := (r + 1) * len ≤ 2 ^ 32

instance (len r : ℕ) : Decidable (RowFits len r) := inferInstanceAs (Decidable (_ ≤ _))

/-- The base of a row that fits does not wrap. -/
theorem RowFits.kernelBase {len r : ℕ} (h : RowFits len r) (hlen : 0 < len) :
    kernelBase len r = arrayBase len r := by
  unfold RowFits at h
  rw [Nat.succ_mul] at h
  exact u32_natCast (by omega)

theorem RowFits.plus_eq {plus : ℕ → ℕ → ℕ} (hadd : Adds plus) {len r i : ℕ} (h : RowFits len r)
    (hi : i < len) : plus (HbmIndex.kernelBase len r) i = arrayBase len r + i := by
  rw [h.kernelBase (Nat.zero_lt_of_lt hi), hadd.exact]
  unfold RowFits at h
  rw [Nat.succ_mul] at h
  unfold arrayBase
  omega

/-- An element of a row of the buffer is in the buffer. -/
theorem element_lt {n len r i : ℕ} (hr : r < n) (hi : i < len) : arrayBase len r + i < n * len := by
  unfold arrayBase
  calc r * len + i < r * len + len := Nat.add_lt_add_left hi _
    _ = (r + 1) * len := (Nat.succ_mul r len).symm
    _ ≤ n * len := Nat.mul_le_mul_right len hr

/-- The slots, the free list and the queries of a request. -/
structure SlotsFit (d : Sizes) (r : ℕ) : Prop where
  slot : RowFits d.SLOT_COUNT r
  free : RowFits d.FREE_SLOT_COUNT r
  query : RowFits d.QUERY_COUNT r

/-- All rows of a request. -/
structure Addressed (d : Sizes) (r : ℕ) : Prop extends SlotsFit d r where
  index : RowFits d.INDEX_SIZE r

/-- Rows that 32 bits address begin where the rows of the arrays do. -/
theorem Addressed.exact {d : Sizes} {r : ℕ} (h : Addressed d r) : Exact d HbmIndex.kernelBase r := by
  have key : ∀ len, RowFits len r → HbmIndex.kernelBase len r = arrayBase len r := by
    intro len hfit
    cases len with
    | zero => rfl
    | succ len => exact hfit.kernelBase (Nat.succ_pos len)
  exact ⟨key _ h.index, key _ h.slot, key _ h.free, key _ h.query⟩

/-! ## Windows, element by element -/

/-- An element of a row that has been written. -/
theorem putWindow_apply (t : ℕ → ℤ) (base : ℕ) {xs : List ℤ} {i : ℕ} (hi : i < xs.length) :
    putWindow t base xs (base + i) = read xs i := by
  unfold putWindow
  rw [if_pos ⟨Nat.le_add_right base i, Nat.add_lt_add_left hi base⟩, Nat.add_sub_cancel_left,
    read_of_lt hi, List.getD_eq_getElem _ _ hi]

/-- A row written with one entry changed is the row written and then that element. -/
theorem putWindow_set (t : ℕ → ℤ) (base : ℕ) {xs : List ℤ} {i : ℕ} (hi : i < xs.length) (v : ℤ) :
    putWindow t base (xs.set i v) = update (putWindow t base xs) (base + i) v := by
  funext a
  unfold putWindow
  rw [List.length_set]
  by_cases ha : a = base + i
  · rw [ha, Function.update_self, if_pos ⟨Nat.le_add_right base i, Nat.add_lt_add_left hi base⟩,
      Nat.add_sub_cancel_left, List.getD_eq_getElem _ _ (by rw [List.length_set]; exact hi),
      List.getElem_set_self]
  · rw [Function.update_of_ne ha]
    by_cases hin : base ≤ a ∧ a < base + xs.length
    · have hne : ¬ i = a - base := by omega
      rw [if_pos hin, if_pos hin, List.getD_eq_getElem?_getD, List.getD_eq_getElem?_getD,
        List.getElem?_set_ne hne]
    · rw [if_neg hin, if_neg hin]

/-- The tables, with the row of request `r` on its way; the head is in a local variable. -/
def Tables.holding (d : Sizes) (m : Tables) (r : ℕ) (row : Row) : Tables where
  index := putWindow m.index (arrayBase d.INDEX_SIZE r) row.index
  slotToIndex := putWindow m.slotToIndex (arrayBase d.SLOT_COUNT r) row.slotToIndex
  freeSlots := putWindow m.freeSlots (arrayBase d.FREE_SLOT_COUNT r) row.freeSlots
  freeHead := m.freeHead
  query := m.query
  slotOut := m.slotOut

/-- Tables that hold a row as they do already. -/
theorem Tables.holding_row (d : Sizes) (m : Tables) (r : ℕ) :
    m.holding d r (m.row d arrayBase r) = m := by
  unfold Tables.holding Tables.row
  ext a
  · exact congrFun (putWindow_window _ _ _) a
  · exact congrFun (putWindow_window _ _ _) a
  · exact congrFun (putWindow_window _ _ _) a
  · rfl
  · rfl
  · rfl

/-! ## The pass on a row of its own -/

section

variable {d : Sizes} {plus : ℕ → ℕ → ℕ} {n r fuel : ℕ} {seed : UInt32}

/-- The last query slots are read off their row. -/
theorem marked_eq (hadd : Adds plus) (hr : r < n) (hfit : RowFits d.QUERY_COUNT r) (m : Tables)
    (words : ProtectedSlots) :
    (List.range d.QUERY_COUNT).foldlM (fun words i => do
        markProtectedSlot words (← loadElement m.query (n * d.QUERY_COUNT)
          (plus (kernelBase d.QUERY_COUNT r) i))) words =
      (List.range d.QUERY_COUNT).foldlM (fun words i => do
        markProtectedSlot words (← getValue (m.queryRow d arrayBase r) i)) words := by
  refine Folds.foldlM_congr fun words i hi => ?_
  have hi := List.mem_range.mp hi
  have hload : loadElement m.query (n * d.QUERY_COUNT) (plus (kernelBase d.QUERY_COUNT r) i) =
      getValue (m.queryRow d arrayBase r) i := by
    rw [hfit.plus_eq hadd hi]
    unfold loadElement
    rw [if_pos (element_lt hr hi), getValue_ok (by rw [Tables.queryRow, length_window]; exact hi)]
    unfold Tables.queryRow window
    rw [read_map_range hi]
  rw [hload]

/-- An element of a row, wherever the row is on its way. -/
theorem loadElement_window (hadd : Adds plus) (hr : r < n) {len : ℕ} (hfit : RowFits len r)
    (t : ℕ → ℤ) {xs : List ℤ} (hlen : xs.length = len) {i : ℕ} (hi : i < len) :
    loadElement (putWindow t (arrayBase len r) xs) (n * len) (plus (kernelBase len r) i) =
      .ok (read xs i) := by
  rw [hfit.plus_eq hadd hi]
  unfold loadElement
  rw [if_pos (element_lt hr hi), putWindow_apply t _ (by rw [hlen]; exact hi)]

/-- A store to an element of a row that fits is one into the row. -/
theorem storeElement_window (hadd : Adds plus) (hr : r < n) {len : ℕ} (hfit : RowFits len r)
    (t : ℕ → ℤ) {xs : List ℤ} (hlen : xs.length = len) {i : ℕ} (hi : i < len) (v : ℤ) :
    storeElement (putWindow t (arrayBase len r) xs) (n * len) (plus (kernelBase len r) i) v =
      .ok (putWindow t (arrayBase len r) (xs.set i v)) := by
  rw [hfit.plus_eq hadd hi]
  unfold storeElement
  rw [if_pos (element_lt hr hi), putWindow_set t _ (by rw [hlen]; exact hi)]

/-- The lengths of a request's row. -/
structure RowLengths (d : Sizes) (row : Row) : Prop where
  index : row.index.length = d.INDEX_SIZE
  slot : row.slotToIndex.length = d.SLOT_COUNT
  free : row.freeSlots.length = d.FREE_SLOT_COUNT

/-- A row of the tables has the lengths of the sizes. -/
theorem rowLengths_row (m : Tables) (base : ℕ → ℕ → ℕ) : RowLengths d (m.row d base r) :=
  ⟨length_window _ _ _, length_window _ _ _, length_window _ _ _⟩

/-- A turn that stays inside the row is a turn on the tables. -/
theorem tablesTurn_of_walkTurn (hadd : Adds plus) (hr : r < n) (hfit : SlotsFit d r)
    (hindex : RowFits d.INDEX_SIZE r) (m : Tables) {words : ProtectedSlots} {c c' : Walk}
    (hlen : RowLengths d c.row) (h : walkTurn d words c = .ok c') :
    tablesTurn d plus n r words ⟨c.slot, c.row.freeHead, m.holding d r c.row⟩ =
      .ok ⟨c'.slot, c'.row.freeHead, m.holding d r c'.row⟩ ∧ RowLengths d c'.row := by
  unfold walkTurn at h
  -- the turn on the row has read its slot, so that slot is one of the row
  obtain ⟨indexId, hget, h⟩ := Folds.ok_of_bind h
  have hslot : c.slot < d.SLOT_COUNT := by
    rw [← hlen.slot]
    unfold getValue at hget
    split_ifs at hget with hlt
    exact hlt
  rw [getValue_ok (by rw [hlen.slot]; exact hslot)] at hget
  cases hget
  unfold tablesTurn
  dsimp only [Tables.holding]
  -- the same slot is read from the flat table
  rw [loadElement_window hadd hr hfit.slot m.slotToIndex hlen.slot hslot]
  simp only [bind, Except.bind, pure, Except.pure]
  split_ifs at h with hev
  -- the three stores of the row went through, and stay inside it
  · obtain ⟨slotToIndex, hslots, h⟩ := Folds.ok_of_bind h
    obtain ⟨index, htoken, h⟩ := Folds.ok_of_bind h
    obtain ⟨freeSlots, hfree, h⟩ := Folds.ok_of_bind h
    cases h
    have hlens := And.intro (setValue_length htoken) (And.intro (setValue_length hslots) (setValue_length hfree))
    unfold setValue at hslots htoken hfree
    split_ifs at hslots htoken hfree with h1 h2 h3
    cases hslots
    cases htoken
    cases hfree
    rw [hlen.index] at h2
    rw [hlen.free] at h3
    -- each of them is a store into the flat table, at the base of the row
    rw [if_pos hev, storeElement_window hadd hr hfit.slot m.slotToIndex hlen.slot hslot]
    dsimp only
    rw [storeElement_window hadd hr hindex m.index hlen.index h2]
    dsimp only
    rw [storeElement_window hadd hr hfit.free m.freeSlots hlen.free h3]
    exact ⟨rfl, hlens.1.trans hlen.index, hlens.2.1.trans hlen.slot, hlens.2.2.trans hlen.free⟩
  -- nothing is taken in this turn
  · cases h
    rw [if_neg hev]
    exact ⟨rfl, hlen⟩

/-- A walk over a row that returns is the walk over the tables. -/
theorem tablesWalk_of_walk (hadd : Adds plus) (hr : r < n) (hfit : SlotsFit d r)
    (hindex : RowFits d.INDEX_SIZE r) (m : Tables) {words : ProtectedSlots} {c : Walk} {row' : Row}
    (hlen : RowLengths d c.row) (h : walk d words fuel c = .ok row') :
    ∃ slot, tablesWalk d plus n r words fuel ⟨c.slot, c.row.freeHead, m.holding d r c.row⟩ =
      .ok ⟨slot, row'.freeHead, m.holding d r row'⟩ := by
  induction fuel generalizing c with
  | zero =>
      unfold walk at h
      split_ifs at h with hpos
      cases h
      exact ⟨c.slot, if_neg hpos⟩
  | succ fuel ih =>
      unfold walk at h
      unfold tablesWalk
      split_ifs at h ⊢ with hpos
      · obtain ⟨c', hturn, h⟩ := Folds.ok_of_bind h
        obtain ⟨hflat, hlen'⟩ := tablesTurn_of_walkTurn hadd hr hfit hindex m hlen hturn
        rw [hflat]
        exact ih hlen' h
      · cases h
        exact ⟨c.slot, rfl⟩

/-- **A pass that stays inside the request's own row** is the pass on the tables, by pointers
and by 32-bit element numbers. -/
theorem maintainRequest_of_serveRow (hadd : Adds plus) (hr : r < n) (hfit : SlotsFit d r)
    (hindex : RowFits d.INDEX_SIZE r) {s s' : ProtectedSlots × Tables}
    (h : serveRow d arrayBase (maintainOp d fuel seed) s r = .ok s') :
    maintainRequest d plus fuel seed n s r = .ok s' := by
  obtain ⟨words, m⟩ := s
  -- the pass over the row that is cut out has returned
  unfold serveRow at h
  obtain ⟨⟨words', out, row'⟩, hop, h⟩ := Folds.ok_of_bind h
  cases h
  -- both begin with the head of the request
  have hload : loadElement m.freeHead n r = .ok (m.freeHead r) := if_pos hr
  unfold maintainRequest
  dsimp only
  rw [hload]
  simp only [bind, Except.bind, pure, Except.pure]
  unfold maintainOp at hop
  have hhead : (m.row d arrayBase r).freeHead = m.freeHead r := rfl
  rw [hhead] at hop
  split_ifs at hop ⊢ with hzero
  -- nothing to take back: the row is put back as it was read
  · cases hop
    exact congrArg (fun t => Except.ok (words, t)) (putRow_row d arrayBase m r).symm
  -- the marks, and then the walk
  · obtain ⟨marked, hmarked, hop⟩ := Folds.ok_of_bind hop
    obtain ⟨row'', hwalk, hop⟩ := Folds.ok_of_bind hop
    cases hop
    -- the walk over the tables ends in the tables that hold the row of the other walk
    obtain ⟨slot, hflat⟩ := tablesWalk_of_walk hadd hr hfit hindex m (rowLengths_row m _) hwalk
    have hmarks := marked_eq hadd hr hfit.query m (clearLoop d words)
    simp only [bind, Except.bind] at hmarks hmarked
    rw [hmarks, hmarked]
    dsimp only
    rw [m.holding_row d r, hhead] at hflat
    rw [hflat]
    dsimp only
    -- the host stores the head at the end
    have hstore : storeElement (m.holding d r row').freeHead n r row'.freeHead =
        .ok (update m.freeHead r row'.freeHead) := if_pos hr
    rw [hstore]
    refine congrArg (fun t => Except.ok (words', t)) ?_
    unfold Tables.holding Tables.putRow
    ext a
    -- table by table: only those of the row differ from before
    · rfl
    · rfl
    · rfl
    -- no output is written by the maintenance
    · show update m.freeHead r row'.freeHead a = if a = r then row'.freeHead else m.freeHead a
      by_cases ha : a = r
      · rw [ha, Function.update_self, if_pos rfl]
      · rw [Function.update_of_ne ha, if_neg ha]
    · rfl
    · show m.slotOut a = putWindow m.slotOut _ [] a
      unfold putWindow
      rw [List.length_nil, if_neg (by omega)]

end

/-- Requests that can be served one by one on rows of their own can be served on the tables. -/
theorem serves_maintainRequest {d : Sizes} {plus : ℕ → ℕ → ℕ} {n fuel : ℕ} {seed : UInt32}
    {Good : ProtectedSlots → Prop} {After : Finset ℕ → Tables → Prop} (hadd : Adds plus)
    (hrows : ∀ r < n, Addressed d r)
    (h : Serves (serveRow d arrayBase (maintainOp d fuel seed)) n Good After) :
    Serves (maintainRequest d plus fuel seed n) n Good After := by
  constructor
  intro done t words r hr hnot hafter hgood
  obtain ⟨words', t', hrun, hgood', hafter'⟩ := h.step done t words r hr hnot hafter hgood
  exact ⟨words', t', maintainRequest_of_serveRow hadd hr (hrows r hr).toSlotsFit (hrows r hr).index hrun,
    hgood', hafter'⟩

/-! ## More fuel -/

section

variable {d : Sizes} {plus : ℕ → ℕ → ℕ} {n r fuel fuel' : ℕ} {seed : UInt32}

/-- More fuel than the walk needs does not change what it comes to. -/
theorem tablesWalk_mono (hle : fuel ≤ fuel') {words : ProtectedSlots} {c c' : TablesWalk}
    (h : tablesWalk d plus n r words fuel c = .ok c') : tablesWalk d plus n r words fuel' c = .ok c' := by
  induction fuel generalizing fuel' c with
  | zero =>
      unfold tablesWalk at h
      split_ifs at h with hpos
      cases fuel' with
      | zero => exact (if_neg hpos).trans h
      | succ fuel' => exact (if_neg hpos).trans h
  | succ fuel ih =>
      obtain ⟨fuel', rfl⟩ := Nat.exists_eq_add_of_le' (Nat.le_trans (Nat.le_add_left 1 fuel) hle)
      unfold tablesWalk at h ⊢
      split_ifs at h ⊢ with hpos
      · obtain ⟨c'', hturn, h⟩ := Folds.ok_of_bind h
        rw [hturn]
        exact ih (Nat.le_of_succ_le_succ hle) h
      · exact h

/-- A pass that has ended ends the same way when it may take longer. -/
theorem maintainRequest_mono (hle : fuel ≤ fuel') {s s' : ProtectedSlots × Tables}
    (h : maintainRequest d plus fuel seed n s r = .ok s') :
    maintainRequest d plus fuel' seed n s r = .ok s' := by
  unfold maintainRequest at h ⊢
  dsimp only at h ⊢
  obtain ⟨head, hhead, h⟩ := Folds.ok_of_bind h
  rw [hhead]
  dsimp only [bind, Except.bind]
  split_ifs at h ⊢ with hzero
  · exact h
  · obtain ⟨marked, hmarked, h⟩ := Folds.ok_of_bind h
    obtain ⟨c, hwalk, h⟩ := Folds.ok_of_bind h
    dsimp only [bind, Except.bind] at hmarked
    rw [hmarked]
    dsimp only
    rw [tablesWalk_mono hle hwalk]
    exact h

end

/-! ## The index is only written

The cores write the index through stores that never fail below `2 ^ 32`, and nobody reads it, so
that two tables which differ in the index alone go through the same turns. -/

/-- Tables that differ in the index alone; where 32 bits do not reach, the second index is `f`. -/
def OffIndex (f : ℕ → ℤ) (t t' : Tables) : Prop :=
  ∃ g, t' = { t with index := g } ∧ ∀ a, 2 ^ 32 ≤ a → g a = f a

section

variable {d : Sizes} {n r fuel : ℕ} {seed : UInt32} {f : ℕ → ℤ}

/-- Whether an element is there does not depend on what the buffer holds. -/
theorem storeElement_other {t t1 : ℕ → ℤ} {size a : ℕ} {v : ℤ} (h : storeElement t size a v = .ok t1)
    (g : ℕ → ℤ) : storeElement g size a v = .ok (update g a v) := by
  unfold storeElement at h ⊢
  split_ifs at h ⊢
  rfl

/-- A turn on a core does what it does, whatever the index holds. -/
theorem tablesTurn_offIndex {words : ProtectedSlots} {c c' : TablesWalk} {t : Tables}
    (ht : OffIndex f c.tables t) (h : tablesTurn d wordAdd n r words c = .ok c') :
    ∃ t', tablesTurn d wordAdd n r words ⟨c.slot, c.head, t⟩ = .ok ⟨c'.slot, c'.head, t'⟩ ∧
      OffIndex f c'.tables t' := by
  obtain ⟨g, rfl, hfar⟩ := ht
  unfold tablesTurn at h ⊢
  dsimp only at h ⊢
  obtain ⟨indexId, hload, h⟩ := Folds.ok_of_bind h
  rw [hload]
  dsimp only [bind, Except.bind, pure, Except.pure] at h ⊢
  split_ifs at h ⊢ with hev
  · obtain ⟨slotToIndex, hslots, h⟩ := Folds.ok_of_bind h
    obtain ⟨index, hindex, h⟩ := Folds.ok_of_bind h
    obtain ⟨freeSlots, hfree, h⟩ := Folds.ok_of_bind h
    cases h
    rw [hslots]
    dsimp only
    rw [storeElement_other hindex g]
    dsimp only
    rw [hfree]
    refine ⟨_, rfl, _, rfl, fun a ha => ?_⟩
    -- a 32-bit element number does not get there
    have hword : wordAdd (kernelBase d.INDEX_SIZE r) (u32 indexId) < 2 ^ 32 := u32_lt _
    rw [Function.update_of_ne (by omega)]
    exact hfar a ha
  · cases h
    exact ⟨_, rfl, g, rfl, hfar⟩

/-- The walk of the cores writes the index without reading it, so that tables with another index
there go the same way. -/
theorem tablesWalk_offIndex {words : ProtectedSlots} {c c' : TablesWalk} {t : Tables}
    (ht : OffIndex f c.tables t) (h : tablesWalk d wordAdd n r words fuel c = .ok c') :
    ∃ t', tablesWalk d wordAdd n r words fuel ⟨c.slot, c.head, t⟩ = .ok ⟨c'.slot, c'.head, t'⟩ ∧
      OffIndex f c'.tables t' := by
  induction fuel generalizing c t with
  | zero =>
      unfold tablesWalk at h ⊢
      split_ifs at h ⊢
      cases h
      exact ⟨t, rfl, ht⟩
  | succ fuel ih =>
      unfold tablesWalk at h ⊢
      split_ifs at h ⊢
      · obtain ⟨c'', hturn, h⟩ := Folds.ok_of_bind h
        obtain ⟨t', hturn', ht'⟩ := tablesTurn_offIndex ht hturn
        rw [hturn']
        exact ih ht' h
      · cases h
        exact ⟨t, rfl, ht⟩

theorem maintainRequest_offIndex {words words' : ProtectedSlots} {t t1 t' : Tables}
    (ht : OffIndex f t t') (h : maintainRequest d wordAdd fuel seed n (words, t) r = .ok (words', t1)) :
    ∃ t1', maintainRequest d wordAdd fuel seed n (words, t') r = .ok (words', t1') ∧ OffIndex f t1 t1' := by
  obtain ⟨g, rfl, hfar⟩ := ht
  unfold maintainRequest at h ⊢
  dsimp only at h ⊢
  obtain ⟨head, hhead, h⟩ := Folds.ok_of_bind h
  rw [hhead]
  dsimp only [bind, Except.bind, pure, Except.pure] at h ⊢
  split_ifs at h ⊢ with hzero
  · cases h
    exact ⟨_, rfl, g, rfl, hfar⟩
  · obtain ⟨marked, hmarked, h⟩ := Folds.ok_of_bind h
    obtain ⟨c, hwalk, h⟩ := Folds.ok_of_bind h
    obtain ⟨freeHead, hstore, h⟩ := Folds.ok_of_bind h
    cases h
    obtain ⟨t', hwalk', g', rfl, hfar'⟩ := tablesWalk_offIndex ⟨g, rfl, hfar⟩ hwalk
    dsimp only at hmarked hwalk'
    rw [hmarked]
    dsimp only
    rw [hwalk']
    dsimp only
    rw [hstore]
    exact ⟨_, rfl, g', rfl, hfar'⟩

end

end AsuAscend.HbmIndex
