/-
The requests of one launch.

The tables of all requests lie one after the other in global memory; a row begins at
a 32-bit product of the request id and the row's length (`kernelBase`), while the
Python reference indexes arrays of rows (`arrayBase`). Rows whose bases do not wrap
are disjoint, so that serving them in any order fills in the same tables
(`serveRow_replaced`, `RowsServed.serves`).

## Why rows of one's own are enough

`serveRow` cuts the rows of a request out of the tables at given bases, runs an operation on them
and writes them back. With the bases of the arrays two requests touch no common element; so the
requests served so far have their results, the others their old rows, and this set of requests
is all that the tables depend on (`Tables.served`). The machine of `Lib.StrideCores` then makes of
it that all interleavings of the cores leave the same tables.
-/
import AsuAscend.HbmIndex.Lookup
import AsuAscend.Lib.StrideCores
import Mathlib.Data.List.GetD

set_option autoImplicit false

open MachineWords StrideCores

namespace AsuAscend.HbmIndex

/-- The tables in global memory, by element. `query` is `queryIndex` for the lookup and
`lastQuerySlots` for the maintenance. -/
@[ext] structure Tables where
  index : ℕ → ℤ
  slotToIndex : ℕ → ℤ
  freeSlots : ℕ → ℤ
  freeHead : ℕ → ℤ
  query : ℕ → ℤ
  slotOut : ℕ → ℤ

/-! ## Rows in global memory -/

def window (t : ℕ → ℤ) (base len : ℕ) : List ℤ := (List.range len).map fun i => t (base + i)

/-- A row has as many entries as were asked for. -/
@[simp] theorem length_window (t : ℕ → ℤ) (base len : ℕ) : (window t base len).length = len := by
  rw [window, List.length_map, List.length_range]

theorem window_const (z : ℤ) (base len : ℕ) : window (fun _ => z) base len = List.replicate len z := by
  unfold window
  rw [List.map_const', List.length_range]

def putWindow (t : ℕ → ℤ) (base : ℕ) (xs : List ℤ) : ℕ → ℤ := fun a =>
  if base ≤ a ∧ a < base + xs.length then xs.getD (a - base) 0 else t a

/-- `reqId * len` in 32 bits. -/
def kernelBase (len reqId : ℕ) : ℕ := u32 (reqId * len : ℕ)

def arrayBase (len reqId : ℕ) : ℕ := reqId * len

section

variable (d : Sizes) (base : ℕ → ℕ → ℕ)

def Tables.row (m : Tables) (reqId : ℕ) : Row where
  index := window m.index (base d.INDEX_SIZE reqId) d.INDEX_SIZE
  slotToIndex := window m.slotToIndex (base d.SLOT_COUNT reqId) d.SLOT_COUNT
  freeSlots := window m.freeSlots (base d.FREE_SLOT_COUNT reqId) d.FREE_SLOT_COUNT
  freeHead := m.freeHead reqId

def Tables.queryRow (m : Tables) (reqId : ℕ) : List ℤ :=
  window m.query (base d.QUERY_COUNT reqId) d.QUERY_COUNT

def Tables.putRow (m : Tables) (reqId : ℕ) (out : List ℤ) (row : Row) : Tables where
  index := putWindow m.index (base d.INDEX_SIZE reqId) row.index
  slotToIndex := putWindow m.slotToIndex (base d.SLOT_COUNT reqId) row.slotToIndex
  freeSlots := putWindow m.freeSlots (base d.FREE_SLOT_COUNT reqId) row.freeSlots
  freeHead := fun a => if a = reqId then row.freeHead else m.freeHead a
  query := m.query
  slotOut := putWindow m.slotOut (base d.QUERY_COUNT reqId) out

/-- The body of a loop over requests: from the core's own memory, the request id, its
queries and its row to the core's memory, the row's output and the row afterwards. -/
abbrev RowOp (L : Type) := L → ℕ → List ℤ → Row → Except Halt (L × List ℤ × Row)

def serveRow {L : Type} (op : RowOp L) (s : L × Tables) (reqId : ℕ) : Except Halt (L × Tables) := do
  let (mem, out, row) ← op s.1 reqId (s.2.queryRow d base reqId) (s.2.row d base reqId)
  return (mem, s.2.putRow d base reqId out row)

end

/-! ## Rows that are replaced -/

/-- `t` with the rows of some requests replaced. -/
def replaced (len : ℕ) (rows : ℕ → List ℤ) (done : Finset ℕ) (t : ℕ → ℤ) : ℕ → ℤ := fun a =>
  if a / len ∈ done ∧ a % len < (rows (a / len)).length then (rows (a / len)).getD (a % len) 0
  else t a

section

variable {len r : ℕ} {rows : ℕ → List ℤ} {done : Finset ℕ} {t : ℕ → ℤ}

theorem replaced_empty : replaced len rows ∅ t = t := by
  funext a
  exact if_neg fun h => absurd h.1 (Finset.notMem_empty _)

/-- An element of a row, as the row's number and a place in it. -/
theorem div_mod_of_row {i : ℕ} (hi : i < len) : (r * len + i) / len = r ∧ (r * len + i) % len = i := by
  have hpos : 0 < len := Nat.lt_of_le_of_lt (Nat.zero_le i) hi
  rw [Nat.mul_comm, Nat.mul_add_div hpos, Nat.div_eq_of_lt hi, Nat.mul_add_mod,
    Nat.mod_eq_of_lt hi]
  exact ⟨Nat.add_zero r, rfl⟩

/-- A row that is not replaced is as it was: rows of the arrays do not overlap. -/
theorem window_replaced (hr : r ∉ done) :
    window (replaced len rows done t) (arrayBase len r) len = window t (arrayBase len r) len := by
  refine List.map_congr_left fun i hi => ?_
  obtain ⟨hdiv, _⟩ := div_mod_of_row (r := r) (List.mem_range.mp hi)
  unfold replaced arrayBase
  rw [hdiv, if_neg fun h => hr h.1]

/-- An element of a row that is replaced. -/
theorem replaced_apply (rows : ℕ → List ℤ) (hr : r ∈ done) {i : ℕ} (hi : i < (rows r).length) (hrow : (rows r).length ≤ len) :
    replaced len rows done t (arrayBase len r + i) = (rows r).getD i 0 := by
  obtain ⟨hdiv, hmod⟩ := div_mod_of_row (r := r) (Nat.lt_of_lt_of_le hi hrow)
  unfold replaced arrayBase
  rw [hdiv, hmod, if_pos ⟨hr, hi⟩]

/-- Writing one more row. -/
theorem putWindow_replaced (rows : ℕ → List ℤ) (hr : r ∉ done) (hrow : (rows r).length ≤ len) :
    putWindow (replaced len rows done t) (arrayBase len r) (rows r) =
      replaced len rows (insert r done) t := by
  funext a
  unfold putWindow arrayBase
  by_cases ha : r * len ≤ a ∧ a < r * len + (rows r).length
  · obtain ⟨i, rfl⟩ := Nat.exists_eq_add_of_le ha.1
    have hi : i < (rows r).length := by omega
    obtain ⟨hdiv, hmod⟩ := div_mod_of_row (r := r) (Nat.lt_of_lt_of_le hi hrow)
    rw [if_pos ha, Nat.add_sub_cancel_left]
    unfold replaced
    rw [hdiv, hmod, if_pos ⟨Finset.mem_insert_self r done, hi⟩]
  · rw [if_neg ha]
    -- outside the written part, it makes no difference that the row is served
    unfold replaced
    by_cases hdiv : a / len = r
    · have ha' : ¬ a % len < (rows r).length := by
        intro hlt
        apply ha
        have hsplit := Nat.div_add_mod a len
        rw [hdiv, Nat.mul_comm] at hsplit
        omega
      rw [hdiv, if_neg fun h => hr h.1, if_neg fun h => ha' h.2]
    · have hmem : a / len ∈ insert r done ↔ a / len ∈ done := by
        rw [Finset.mem_insert]
        exact ⟨fun h => h.resolve_left hdiv, Or.inr⟩
      simp only [hmem]

end

/-! ## All requests -/

/-- The tables with some requests served. -/
def Tables.served (d : Sizes) (res : ℕ → List ℤ × Row) (done : Finset ℕ) (m : Tables) : Tables where
  index := replaced d.INDEX_SIZE (fun r => (res r).2.index) done m.index
  slotToIndex := replaced d.SLOT_COUNT (fun r => (res r).2.slotToIndex) done m.slotToIndex
  freeSlots := replaced d.FREE_SLOT_COUNT (fun r => (res r).2.freeSlots) done m.freeSlots
  freeHead := fun a => if a ∈ done then (res a).2.freeHead else m.freeHead a
  query := m.query
  slotOut := replaced d.QUERY_COUNT (fun r => (res r).1) done m.slotOut

theorem Tables.served_empty (d : Sizes) (res : ℕ → List ℤ × Row) (m : Tables) :
    m.served d res ∅ = m := by
  unfold Tables.served
  simp only [replaced_empty, Finset.notMem_empty, if_false]

/-- A result that fits into the tables. -/
structure Fills (d : Sizes) (c : List ℤ × Row) : Prop where
  index_length : c.2.index.length = d.INDEX_SIZE
  slot_length : c.2.slotToIndex.length = d.SLOT_COUNT
  free_length : c.2.freeSlots.length = d.FREE_SLOT_COUNT
  out_length : c.1.length ≤ d.QUERY_COUNT

section

variable {d : Sizes} {L : Type} {op : RowOp L} {res : ℕ → List ℤ × Row} {n r : ℕ}
  {done : Finset ℕ} {m : Tables} {mem mem' : L}

/-- A request that has not been served yet finds its row as it was. -/
theorem served_row (hr : r ∉ done) :
    (m.served d res done).row d arrayBase r = m.row d arrayBase r := by
  unfold Tables.row Tables.served
  simp only [window_replaced hr, if_neg hr]

/-- **One request more** on the arrays, where the others are as they were or served already. -/
theorem serveRow_replaced (hr : r ∉ done) (hfill : Fills d (res r))
    (hop : op mem r (m.queryRow d arrayBase r) (m.row d arrayBase r) = .ok (mem', res r)) :
    serveRow d arrayBase op (mem, m.served d res done) r =
      .ok (mem', m.served d res (insert r done)) := by
  unfold serveRow
  rw [served_row hr]
  show (op mem r (m.queryRow d arrayBase r) (m.row d arrayBase r) >>= fun x =>
    pure (x.1, (m.served d res done).putRow d arrayBase r x.2.1 x.2.2)) = _
  rw [hop]
  refine congrArg (fun t => Except.ok (mem', t)) ?_
  unfold Tables.putRow Tables.served
  congr 1
  · exact putWindow_replaced (fun r => (res r).2.index) hr hfill.index_length.le
  · exact putWindow_replaced (fun r => (res r).2.slotToIndex) hr hfill.slot_length.le
  · exact putWindow_replaced (fun r => (res r).2.freeSlots) hr hfill.free_length.le
  · funext a
    by_cases ha : a = r
    · rw [if_pos ha, if_pos (ha ▸ Finset.mem_insert_self r done), ha]
    · rw [if_neg ha]
      simp only [Finset.mem_insert, ha, false_or]
  · exact putWindow_replaced (fun r => (res r).1) hr hfill.out_length

/-- What each row is served with, whatever the core has in its memory. -/
structure RowsServed (d : Sizes) (op : RowOp L) (Good : L → Prop) (m : Tables) (n : ℕ)
    (res : ℕ → List ℤ × Row) : Prop where
  fills : ∀ r < n, Fills d (res r)
  op : ∀ r < n, ∀ mem, Good mem →
    ∃ mem', op mem r (m.queryRow d arrayBase r) (m.row d arrayBase r) = .ok (mem', res r) ∧ Good mem'

/-- The rows of the launch begin where the rows of the arrays do. -/
structure Exact (d : Sizes) (base : ℕ → ℕ → ℕ) (r : ℕ) : Prop where
  index : base d.INDEX_SIZE r = arrayBase d.INDEX_SIZE r
  slot : base d.SLOT_COUNT r = arrayBase d.SLOT_COUNT r
  free : base d.FREE_SLOT_COUNT r = arrayBase d.FREE_SLOT_COUNT r
  query : base d.QUERY_COUNT r = arrayBase d.QUERY_COUNT r

theorem exact_arrayBase (d : Sizes) (r : ℕ) : Exact d arrayBase r := ⟨rfl, rfl, rfl, rfl⟩

/-- A request whose bases are exact is served as on the arrays. -/
theorem Exact.serveRow {base : ℕ → ℕ → ℕ} (h : Exact d base r) (s : L × Tables) :
    serveRow d base op s r = HbmIndex.serveRow d arrayBase op s r := by
  unfold HbmIndex.serveRow Tables.row Tables.queryRow Tables.putRow
  rw [h.index, h.slot, h.free, h.query]

/-- Every row can be served, in any order. -/
theorem RowsServed.serves {Good : L → Prop} (h : RowsServed d op Good m n res) {base : ℕ → ℕ → ℕ}
    (hbase : ∀ r < n, Exact d base r) :
    Serves (serveRow d base op) n Good fun done t => t = m.served d res done := by
  constructor
  intro done shared mem r hr hnot hshared hmem
  obtain ⟨mem', hop, hgood⟩ := h.op r hr mem hmem
  refine ⟨mem', _, ?_, hgood, rfl⟩
  rw [(hbase r hr).serveRow, hshared]
  exact serveRow_replaced hnot (h.fills r hr) hop

/-- A single loop over the requests. -/
theorem RowsServed.loop {Good : L → Prop} (h : RowsServed d op Good m n res) {base : ℕ → ℕ → ℕ}
    (hbase : ∀ r < n, Exact d base r) (mem : L) (hmem : Good mem) :
    ∃ mem', (List.range n).foldlM (serveRow d base op) (mem, m) =
      .ok (mem', m.served d res (Finset.range n)) ∧ Good mem' := by
  obtain ⟨mem', m', hrun, hgood, rfl⟩ :=
    loop_spec (h.serves hbase) mem hmem (Tables.served_empty d res m).symm
  exact ⟨mem', hrun, hgood⟩

/-- The outcome of a row does not depend on the core's memory. -/
def Computes (d : Sizes) (op : RowOp L) (Good : L → Prop) (m : Tables)
    (f : ℕ → Except Halt (List ℤ × Row)) (n : ℕ) : Prop :=
  ∀ r < n, (∀ mem, Good mem → ∃ mem', Good mem' ∧
      op mem r (m.queryRow d arrayBase r) (m.row d arrayBase r) = (f r >>= fun c => pure (mem', c))) ∧
    ∀ c, f r = .ok c → Fills d c

/-- An operation that computes a row function serves the rows with its results. -/
theorem Computes.served {Good : L → Prop} {f : ℕ → Except Halt (List ℤ × Row)}
    (h : Computes d op Good m f n) (hres : ∀ r < n, f r = .ok (res r)) :
    RowsServed d op Good m n res := by
  refine ⟨fun r hr => (h r hr).2 _ (hres r hr), fun r hr mem hmem => ?_⟩
  obtain ⟨mem', hgood, hop⟩ := (h r hr).1 mem hmem
  rw [hres r hr] at hop
  exact ⟨mem', hop, hgood⟩

/-- A loop that ends has had an outcome for every row. -/
theorem Computes.rows_ok {Good : L → Prop} {f : ℕ → Except Halt (List ℤ × Row)}
    (h : Computes d op Good m f n) {base : ℕ → ℕ → ℕ} (hbase : ∀ r < n, Exact d base r)
    (hmem : Good mem) {s : L × Tables}
    (hrun : (List.range n).foldlM (serveRow d base op) (mem, m) = .ok s) :
    ∃ res : ℕ → List ℤ × Row, ∀ r < n, f r = .ok (res r) := by
  induction n generalizing s with
  | zero => exact ⟨fun _ => ([], m.row d arrayBase 0), fun r hr => absurd hr (Nat.not_lt_zero r)⟩
  | succ n ih =>
      rw [List.range_succ, List.foldlM_append] at hrun
      obtain ⟨s', hfirst, hlast⟩ := Folds.ok_of_bind hrun
      have hn : Computes d op Good m f n := fun r hr => h r (Nat.lt_succ_of_lt hr)
      have hbase' : ∀ r < n, Exact d base r := fun r hr => hbase r (Nat.lt_succ_of_lt hr)
      obtain ⟨res, hres⟩ := ih hn hbase' hfirst
      obtain ⟨mem', hloop, hgood⟩ := (hn.served hres).loop hbase' mem hmem
      have hs' := Except.ok.inj (hfirst.symm.trans hloop)
      -- the last row is as it was, so its outcome is that of the last turn
      obtain ⟨mem'', _, hop⟩ := (h n (Nat.lt_succ_self n)).1 mem' hgood
      obtain ⟨t, hturn, _⟩ := Folds.ok_of_bind hlast
      rw [hs', (hbase n (Nat.lt_succ_self n)).serveRow] at hturn
      unfold HbmIndex.serveRow at hturn
      obtain ⟨c, hc, _⟩ := Folds.ok_of_bind hturn
      dsimp only at hc
      rw [served_row Finset.notMem_range_self] at hc
      have hquery : (m.served d res (Finset.range n)).queryRow d arrayBase n =
          m.queryRow d arrayBase n := rfl
      rw [hquery, hop] at hc
      obtain ⟨out, hout, _⟩ := Folds.ok_of_bind hc
      refine ⟨fun r => if r = n then out else res r, fun r hr => ?_⟩
      dsimp only
      by_cases heq : r = n
      · rw [if_pos heq, heq]
        exact hout
      · rw [if_neg heq]
        exact hres r (by omega)

end

/-- A request whose row comes out as it went in leaves the tables as they were. -/
theorem putWindow_window (t : ℕ → ℤ) (base len : ℕ) : putWindow t base (window t base len) = t := by
  funext a
  unfold putWindow
  rw [length_window]
  split_ifs with ha
  · have hlt : a - base < len := by omega
    rw [List.getD_eq_getElem _ _ (by rw [length_window]; exact hlt)]
    unfold window
    rw [List.getElem_map, List.getElem_range, Nat.add_sub_cancel' ha.1]
  · rfl

/-- Writing a row back as it was read changes nothing. -/
theorem putRow_row (d : Sizes) (base : ℕ → ℕ → ℕ) (m : Tables) (r : ℕ) :
    m.putRow d base r [] (m.row d base r) = m := by
  unfold Tables.putRow Tables.row
  ext a
  · exact congrFun (putWindow_window _ _ _) a
  · exact congrFun (putWindow_window _ _ _) a
  · exact congrFun (putWindow_window _ _ _) a
  · show (if a = r then m.freeHead r else m.freeHead a) = m.freeHead a
    split_ifs with ha
    · rw [ha]
    · rfl
  · rfl
  · show putWindow m.slotOut _ [] a = m.slotOut a
    unfold putWindow
    rw [List.length_nil, if_neg (by omega)]

/-- As long as the index rows fit into 32 bits, no base wraps. -/
theorem exact_kernelBase {d : Sizes} {n : ℕ} (hn : n * d.INDEX_SIZE ≤ 2 ^ 32)
    (hslot : d.SLOT_COUNT ≤ d.INDEX_SIZE) (hfree : d.FREE_SLOT_COUNT ≤ d.INDEX_SIZE)
    (hquery : d.QUERY_COUNT ≤ d.INDEX_SIZE) (hpos : 0 < d.INDEX_SIZE) {r : ℕ} (hr : r < n) :
    Exact d kernelBase r := by
  have key : ∀ len ≤ d.INDEX_SIZE, kernelBase len r = arrayBase len r := by
    intro len hlen
    apply u32_natCast
    calc r * len ≤ r * d.INDEX_SIZE := Nat.mul_le_mul_left r hlen
      _ < n * d.INDEX_SIZE := Nat.mul_lt_mul_of_pos_right hr hpos
      _ ≤ 2 ^ 32 := hn
  exact ⟨key _ le_rfl, key _ hslot, key _ hfree, key _ hquery⟩

/-! ## What the kernel cannot reach

A wrapped base is a multiple of the row's length below `2 ^ 32`, if the length divides that
number, and so are all elements of the row from there. What lies behind is out of reach. -/

section

variable {d : Sizes} {L : Type} {op : RowOp L}

/-- Rows are written back with the length they were read with. -/
def KeepsLength (op : RowOp L) : Prop := ∀ mem r query row mem' out row',
  op mem r query row = .ok (mem', out, row') → row'.index.length = row.index.length

/-- The index of requests whose base wraps is out of reach: a 32-bit element number does not
get there. -/
theorem serveRow_far (hop : KeepsLength op) (hdvd : d.INDEX_SIZE ∣ 2 ^ 32) {s s' : L × Tables} {r : ℕ}
    (h : serveRow d kernelBase op s r = .ok s') {a : ℕ} (ha : 2 ^ 32 ≤ a) :
    s'.2.index a = s.2.index a := by
  unfold serveRow at h
  cases hrun : op s.1 r (s.2.queryRow d kernelBase r) (s.2.row d kernelBase r) with
  | error e =>
      rw [hrun] at h
      cases h
  | ok c =>
      rw [hrun] at h
      cases h
      have hlen := hop _ _ _ _ _ _ _ hrun
      have hrow : (s.2.row d kernelBase r).index.length = d.INDEX_SIZE := length_window _ _ _
      show putWindow s.2.index (kernelBase d.INDEX_SIZE r) c.2.2.index a = s.2.index a
      unfold putWindow
      apply if_neg
      rw [hlen, hrow]
      -- the base is a multiple of the row's length, and so is 2 ^ 32
      have hbase : kernelBase d.INDEX_SIZE r + d.INDEX_SIZE ≤ 2 ^ 32 := by
        have hval : kernelBase d.INDEX_SIZE r = r * d.INDEX_SIZE % 2 ^ 32 := by
          unfold kernelBase u32
          omega
        have hlt : kernelBase d.INDEX_SIZE r < 2 ^ 32 := by
          rw [hval]
          exact Nat.mod_lt _ (Nat.two_pow_pos 32)
        have hmul : d.INDEX_SIZE ∣ kernelBase d.INDEX_SIZE r := by
          rw [hval]
          exact (Nat.dvd_mod_iff hdvd).mpr (Nat.dvd_mul_left _ _)
        obtain ⟨k, hk⟩ := hmul
        obtain ⟨j, hj⟩ := hdvd
        rw [hj, hk] at hlt
        rw [hj, hk, ← Nat.mul_succ]
        exact Nat.mul_le_mul_left _ (Nat.lt_of_mul_lt_mul_left hlt)
      omega

/-- The same for the cores, in any interleaving. -/
theorem run_far (hop : KeepsLength op) (hdvd : d.INDEX_SIZE ∣ 2 ^ 32) {n T : ℕ}
    {s s' : Machine Tables L} {schedule : List ℕ}
    (h : run (serveRow d kernelBase op) n T s schedule = .ok s') {a : ℕ} (ha : 2 ^ 32 ≤ a) :
    s'.shared.index a = s.shared.index a := by
  refine Folds.foldlM_keeps (fun t : Machine Tables L => t.shared.index a = s.shared.index a)
    (fun t t' c _ ht hturn => ?_) rfl h
  unfold turn at hturn
  split_ifs at hturn with hlt
  · cases hrow : serveRow d kernelBase op ((t.cores c).mem, t.shared) (t.cores c).next with
    | error e =>
        rw [hrow] at hturn
        cases hturn
    | ok s'' =>
        rw [hrow] at hturn
        cases hturn
        exact (serveRow_far hop hdvd hrow ha).trans ht
  · cases hturn
    exact ht

end

end AsuAscend.HbmIndex
