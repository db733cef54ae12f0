/-
The two operators in service: round after round, the host writes the queries, the
lookup is launched on its cores, and the maintenance, on the host CPU or on cores of
its own, takes `slot_out` as the last query slots and refills the free lists.

Each launch leaves what the reference in `asu_hbm_index_common.py` computes, so that
the tables of a request go through the rounds of `runRounds` on their own, whatever
the other requests ask for and however the cores interleave (`launchRounds_keep_pools`).

## What is assumed of the schedules

`FairTurns` is a schedule of a launch in which no core stops before its requests are served.
Nothing else is assumed: the turns of different cores may come in any order, the maintenance may
run on the host or on cores, and the seeds may change from round to round. The queries of every
round are tokens of the rows, as the operator asks of its callers.
-/
import AsuAscend.HbmIndex.LookupLaunch
import AsuAscend.HbmIndex.MaintainLaunch
import AsuAscend.HbmIndex.Rounds

set_option autoImplicit false

open MachineWords SentinelTable StrideCores

namespace AsuAscend.HbmIndex

/-! ## The launches of a round -/

/-- Where the maintenance runs: `MaintainEviction`, with the bitmap on its stack, or the
cores, with a bitmap each. -/
inductive MaintainPath where
  | host (protectedSlots : ProtectedSlots)
  | cores (blockNum : ℕ) (protectedSlots : ℕ → ProtectedSlots) (schedule : List ℕ)

/-- One round for all requests: the queries, the lookup's cores, and the maintenance. -/
structure LaunchedRound where
  query : ℕ → List ℤ
  seed : UInt32
  blockNum : ℕ
  schedule : List ℕ
  maintain : MaintainPath

section

variable (d : Sizes) (fuel n : ℕ)

/-- The tables, with new queries. -/
def Tables.asking (query : ℕ → List ℤ) (m : Tables) : Tables :=
  { m with query := replaced d.QUERY_COUNT query (Finset.range n) m.query }

/-- `slot_out` goes into the maintenance as the last query slots. -/
def Tables.handOver (m : Tables) : Tables := { m with query := m.slotOut }

def MaintainPath.launch (seed : UInt32) (m : Tables) : MaintainPath → Except Halt Tables
  | .host protectedSlots => maintainEviction d fuel seed n protectedSlots m
  | .cores blockNum protectedSlots schedule => do
      let s ← maintainKernel d fuel seed n blockNum protectedSlots schedule m
      return s.shared

/-- The tables after the lookup, and after the maintenance. -/
def launchRound (k : LaunchedRound) (m : Tables) : Except Halt (Tables × Tables) := do
  let s ← lookupKernel d n k.blockNum k.schedule (m.asking d n k.query)
  let after ← k.maintain.launch d fuel n k.seed s.shared.handOver
  return (s.shared, after)

def launchRounds : List LaunchedRound → Tables → Except Halt (List (Tables × Tables))
  | [], _ => .ok []
  | k :: ks, m => do
      let t ← launchRound d fuel n k m
      let ts ← launchRounds ks t.2
      return t :: ts

/-- The same, by the reference. -/
def expectedRound (k : LaunchedRound) (m : Tables) : Except Halt (Tables × Tables) := do
  let looked ← expectedLookup d n (m.asking d n k.query)
  let after ← expectedMaintain d fuel k.seed.toNat n looked.handOver
  return (looked, after)

def expectedRounds : List LaunchedRound → Tables → Except Halt (List (Tables × Tables))
  | [], _ => .ok []
  | k :: ks, m => do
      let t ← expectedRound d fuel n k m
      let ts ← expectedRounds ks t.2
      return t :: ts

/-- A round of request `r`, as the tables show it. -/
def roundOf (r : ℕ) (k : LaunchedRound) (t : Tables × Tables) : Round where
  query := k.query r
  seed := k.seed
  slotOut := window t.1.slotOut (arrayBase d.QUERY_COUNT r) d.QUERY_COUNT
  after := t.2.row d arrayBase r

/-- Every core of a launch has had its turns. -/
structure FairTurns (blockNum : ℕ) (schedule : List ℕ) : Prop where
  pos : 0 < blockNum
  core : ∀ c ∈ schedule, c < blockNum
  turns : ∀ c < blockNum, n ≤ schedule.count c

/-- The cores finish, and the bitmaps have the kernel's size, whatever they hold. -/
def MaintainPath.Finishes : MaintainPath → Prop
  | .host protectedSlots => Bitmap d protectedSlots
  | .cores blockNum protectedSlots schedule =>
      FairTurns n blockNum schedule ∧ ∀ c < blockNum, Bitmap d (protectedSlots c)

structure LaunchedRound.Finishes (k : LaunchedRound) : Prop where
  lookup : FairTurns n k.blockNum k.schedule
  maintain : k.maintain.Finishes d n
  query_length : ∀ r < n, (k.query r).length = d.QUERY_COUNT
  inRange : ∀ r < n, ∀ q ∈ k.query r, InRange d q

/-- Between two rounds: the pool of every request is whole, and it has enough residents. -/
def Served (m : Tables) : Prop :=
  ∀ r < n, Ready d (m.row d arrayBase r) ∧
    d.QUERY_COUNT ≤ (residentTokens (m.row d arrayBase r)).card

end

/-! ## Rows that have been served -/

section

variable {d : Sizes} {n r : ℕ} {m : Tables}

/-- A row that is replaced is the new one. -/
theorem window_replaced_mem {len : ℕ} {done : Finset ℕ} {t : ℕ → ℤ} (rows : ℕ → List ℤ)
    (hr : r ∈ done) (hrow : (rows r).length = len) :
    window (replaced len rows done t) (arrayBase len r) len = rows r := by
  unfold window
  apply List.ext_getElem
  · rw [List.length_map, List.length_range, hrow]
  · intro i hi hi'
    rw [List.getElem_map, List.getElem_range, replaced_apply rows hr hi' hrow.le,
      List.getD_eq_getElem _ _ hi']

theorem asking_row (query : ℕ → List ℤ) : (m.asking d n query).row d arrayBase r = m.row d arrayBase r :=
  rfl

theorem asking_queryRow {query : ℕ → List ℤ} (hr : r < n) (hlen : (query r).length = d.QUERY_COUNT) :
    (m.asking d n query).queryRow d arrayBase r = query r :=
  window_replaced_mem query (Finset.mem_range.mpr hr) hlen

/-- A request that is served has its result. -/
theorem served_row_mem {res : ℕ → List ℤ × Row} {done : Finset ℕ} (hr : r ∈ done)
    (hfill : Fills d (res r)) : (m.served d res done).row d arrayBase r = (res r).2 := by
  have hindex := window_replaced_mem (t := m.index) (fun r => (res r).2.index) hr hfill.index_length
  have hslot := window_replaced_mem (t := m.slotToIndex) (fun r => (res r).2.slotToIndex) hr
    hfill.slot_length
  have hfree := window_replaced_mem (t := m.freeSlots) (fun r => (res r).2.freeSlots) hr
    hfill.free_length
  unfold Tables.row Tables.served
  dsimp only
  rw [hindex, hslot, hfree, if_pos hr]

end

/-! ## One launch -/

section

variable {d : Sizes} {L : Type} {op : RowOp L} {Good : L → Prop} {res : ℕ → List ℤ × Row}
  {n : ℕ} {m : Tables}

/-- Cores that have had their turns leave what a single loop leaves. -/
theorem RowsServed.launch (h : RowsServed d op Good m n res) (hbase : ∀ r < n, Exact d kernelBase r)
    {blockNum : ℕ} {schedule : List ℕ} (hfair : FairTurns n blockNum schedule) {mem : ℕ → L}
    (hmem : ∀ c < blockNum, Good (mem c)) :
    ∃ s, run (serveRow d kernelBase op) n blockNum (start m mem) schedule = .ok s ∧
      s.shared = m.served d res (Finset.range n) := by
  obtain ⟨s, hrun, hdone, hfin⟩ := run_spec (h.serves hbase) hfair.pos hmem
    (Tables.served_empty d res m).symm hfair.core
  exact ⟨s, hrun, hdone (hfin hfair.turns)⟩

end

section

variable {d : Sizes} {fuel n : ℕ} {m : Tables} {seed : UInt32}

/-- The lookup's launch, request by request. -/
theorem lookup_launch (hd : d.Fits) (hbase : ∀ r < n, Exact d kernelBase r) (hm : LookupState d n m)
    {blockNum : ℕ} {schedule : List ℕ} (hfair : FairTurns n blockNum schedule) :
    ∃ s, lookupKernel d n blockNum schedule m = .ok s ∧ expectedLookup d n m = .ok s.shared ∧
      ∀ r < n, processRow d (m.queryRow d arrayBase r) (m.row d arrayBase r) =
        .ok (window s.shared.slotOut (arrayBase d.QUERY_COUNT r) d.QUERY_COUNT,
          s.shared.row d arrayBase r) := by
  obtain ⟨res, hker, hexp, hlooked⟩ := lookup_rows hd hm
  obtain ⟨s, hrun, hshared⟩ : ∃ s, lookupKernel d n blockNum schedule m = .ok s ∧
      s.shared = m.served d res (Finset.range n) := hker.launch hbase hfair fun _ _ => trivial
  refine ⟨s, hrun, ?_, fun r hr => ?_⟩
  · rw [expectedLookup_eq hexp, hshared]
  · obtain ⟨_, hop, _⟩ := hker.op r hr () trivial
    obtain ⟨c, hc, hret⟩ := Folds.ok_of_bind hop
    have hres : c = res r := congrArg Prod.snd (Except.ok.inj hret)
    have hlen : (res r).1.length = d.QUERY_COUNT := by
      rw [(hlooked r hr).out_length, Tables.queryRow, length_window]
    have hout : window s.shared.slotOut (arrayBase d.QUERY_COUNT r) d.QUERY_COUNT = (res r).1 := by
      rw [hshared]
      exact window_replaced_mem (fun r => (res r).1) (Finset.mem_range.mpr hr) hlen
    have hrow : s.shared.row d arrayBase r = (res r).2 := by
      rw [hshared]
      exact served_row_mem (Finset.mem_range.mpr hr) (hker.fills r hr)
    rw [hout, hrow, hc, hres]

/-- What the loop body makes of a row does not depend on the bitmap it is given. -/
theorem maintainOp_eq (fuel : ℕ) (seed : UInt32) (hd : d.Fits) {last : List ℤ} (hlen : last.length = d.QUERY_COUNT)
    (hlast : ∀ z ∈ last, 0 ≤ z ∧ z < d.SLOT_COUNT) (r : ℕ) (row : Row) {words : ProtectedSlots}
    (hwords : words.length = PROTECTED_WORD_COUNT d) :
    ∃ words' : ProtectedSlots, words'.length = PROTECTED_WORD_COUNT d ∧
      maintainOp d fuel seed words r last row =
        (maintainRow d fuel seed (UInt32.ofNat r) last row >>= fun row' => pure (words', [], row')) := by
  obtain ⟨marked, hmarked, _⟩ := markProtectedSlots_spec hlen hd hlast
  unfold maintainOp maintainRow
  split_ifs with hzero
  · exact ⟨words, hwords, rfl⟩
  · refine ⟨marked, ?_, ?_⟩
    · have hkeep := Folds.foldlM_keeps
        (fun words : ProtectedSlots => words.length = (clearProtectedSlots d).length)
        (fun words words' i _ hlen hstep => by
          obtain ⟨slot, _, hmark⟩ := Folds.ok_of_bind hstep
          exact (markProtectedSlot_length hmark).trans hlen) rfl hmarked
      rw [hkeep, clearProtectedSlots, List.length_replicate]
    · rw [clearLoop_eq hwords, hmarked]
      rfl

/-- A turn of the walk stores into the lists in place. -/
theorem walkTurn_lengths {words : ProtectedSlots} {c c' : Walk} (h : walkTurn d words c = .ok c') :
    c'.row.index.length = c.row.index.length ∧
      c'.row.slotToIndex.length = c.row.slotToIndex.length ∧
      c'.row.freeSlots.length = c.row.freeSlots.length := by
  unfold walkTurn at h
  obtain ⟨indexId, _, h⟩ := Folds.ok_of_bind h
  split_ifs at h
  · obtain ⟨slotToIndex, hslots, h⟩ := Folds.ok_of_bind h
    obtain ⟨index, hindex, h⟩ := Folds.ok_of_bind h
    obtain ⟨freeSlots, hfree, h⟩ := Folds.ok_of_bind h
    cases h
    exact ⟨setValue_length hindex, setValue_length hslots, setValue_length hfree⟩
  · cases h
    exact ⟨rfl, rfl, rfl⟩

theorem walk_lengths {words : ProtectedSlots} {fuel : ℕ} {c : Walk} {row' : Row}
    (h : walk d words fuel c = .ok row') : row'.index.length = c.row.index.length ∧
      row'.slotToIndex.length = c.row.slotToIndex.length ∧
      row'.freeSlots.length = c.row.freeSlots.length := by
  induction fuel generalizing c with
  | zero =>
      unfold walk at h
      split_ifs at h
      cases h
      exact ⟨rfl, rfl, rfl⟩
  | succ fuel ih =>
      unfold walk at h
      split_ifs at h
      · obtain ⟨c', hturn, h⟩ := Folds.ok_of_bind h
        obtain ⟨h1, h2, h3⟩ := walkTurn_lengths hturn
        obtain ⟨h1', h2', h3'⟩ := ih h
        exact ⟨h1'.trans h1, h2'.trans h2, h3'.trans h3⟩
      · cases h
        exact ⟨rfl, rfl, rfl⟩

theorem maintainRow_lengths {reqId : UInt32} {last : List ℤ} {row row' : Row}
    (h : maintainRow d fuel seed reqId last row = .ok row') :
    row'.index.length = row.index.length ∧ row'.slotToIndex.length = row.slotToIndex.length ∧
      row'.freeSlots.length = row.freeSlots.length := by
  unfold maintainRow at h
  split_ifs at h
  · cases h
    exact ⟨rfl, rfl, rfl⟩
  · obtain ⟨words, _, h⟩ := Folds.ok_of_bind h
    exact walk_lengths h

/-- A request that both passes can maintain, with the row they come to. -/
structure Maintained (d : Sizes) (fuel : ℕ) (seed reqId : UInt32) (last : List ℤ) (row after : Row) :
    Prop where
  slots : ∀ z ∈ last, 0 ≤ z ∧ z < d.SLOT_COUNT
  kernel : maintainRow d fuel seed reqId last row = .ok after
  reference : expectedMaintainRow d fuel seed.toNat reqId.toNat last row = .ok after

/-- The row of a request, after its maintenance. -/
def maintained (d : Sizes) (fuel : ℕ) (seed : UInt32) (m : Tables) (r : ℕ) : Except Halt (List ℤ × Row) := do
  let row ← maintainRow d fuel seed (UInt32.ofNat r) (m.queryRow d arrayBase r) (m.row d arrayBase r)
  return ([], row)

/-- It leaves a row of the lengths of the sizes. -/
theorem maintained_fills {r : ℕ} {c : List ℤ × Row} (h : maintained d fuel seed m r = .ok c) :
    Fills d c := by
  unfold maintained at h
  obtain ⟨row, hrow, h⟩ := Folds.ok_of_bind h
  cases h
  obtain ⟨h1, h2, h3⟩ := maintainRow_lengths hrow
  exact ⟨h1.trans (length_window _ _ _), h2.trans (length_window _ _ _),
    h3.trans (length_window _ _ _), Nat.zero_le _⟩

/-- The reference on whole tables, where every request returns. -/
theorem expectedMaintain_served {seed : ℤ} {res : ℕ → List ℤ × Row}
    (h : RowsServed d (expectedMaintainOp d fuel seed) (fun _ => True) m n res) :
    expectedMaintain d fuel seed n m = .ok (m.served d res (Finset.range n)) := by
  obtain ⟨mem, hrun, _⟩ := h.loop (fun r _ => exact_arrayBase d r) () trivial
  unfold expectedMaintain
  rw [hrun]
  rfl

/-- The maintenance's launch, request by request, on either path. -/
theorem maintain_launch (hd : d.Fits) (hrows : ∀ r < n, Addressed d r) (hn : n ≤ 2 ^ 32)
    {after : ℕ → Row} (hm : ∀ r < n, Maintained d fuel seed (UInt32.ofNat r) (m.queryRow d arrayBase r)
      (m.row d arrayBase r) (after r)) {path : MaintainPath} (hpath : path.Finishes d n) :
    ∃ m', path.launch d fuel n seed m = .ok m' ∧ expectedMaintain d fuel seed.toNat n m = .ok m' ∧
      ∀ r < n, m'.row d arrayBase r = after r := by
  have hrow : ∀ r < n, maintained d fuel seed m r = .ok ([], after r) := fun r hr => by
    unfold maintained
    rw [(hm r hr).kernel]
    rfl
  -- the kernel protects by a bitmap, whatever it held, and the reference by a set
  have hkernel : RowsServed d (maintainOp d fuel seed) (Bitmap d) m n fun r => ([], after r) := by
    refine ⟨fun r hr => maintained_fills (hrow r hr), fun r hr words hwords => ?_⟩
    have hlen : (m.queryRow d arrayBase r).length = d.QUERY_COUNT := length_window _ _ _
    obtain ⟨words', hwords', hop⟩ := maintainOp_eq fuel seed hd hlen (hm r hr).slots r
      (m.row d arrayBase r) hwords
    rw [(hm r hr).kernel] at hop
    exact ⟨words', hop, hwords'⟩
  have hreference : RowsServed d (expectedMaintainOp d fuel seed.toNat) (fun _ => True) m n
      fun r => ([], after r) := by
    refine ⟨fun r hr => maintained_fills (hrow r hr), fun r hr mem _ => ⟨(), ?_, trivial⟩⟩
    have hid : (UInt32.ofNat r).toNat = r := UInt32.toNat_ofNat_of_lt' (Nat.lt_of_lt_of_le hr hn)
    have hsame := (hm r hr).reference
    rw [hid] at hsame
    unfold expectedMaintainOp
    rw [hsame]
    rfl
  have hserves := hkernel.serves fun r _ => exact_arrayBase d r
  refine ⟨m.served d (fun r => ([], after r)) (Finset.range n), ?_, expectedMaintain_served hreference,
    fun r hr => ?_⟩
  · cases path with
    | host protectedSlots =>
        obtain ⟨words, m', hloop, _, hm'⟩ := loop_spec (serves_maintainRequest adds_pointerAdd hrows hserves)
          protectedSlots hpath (Tables.served_empty d _ m).symm
        show maintainEviction d fuel seed n protectedSlots m = _
        unfold maintainEviction
        rw [hloop, ← hm']
        rfl
    | cores blockNum protectedSlots schedule =>
        obtain ⟨s, hrun, hdone, hfin⟩ := run_spec (serves_maintainRequest adds_wordAdd hrows hserves)
          hpath.1.pos hpath.2 (Tables.served_empty d _ m).symm hpath.1.core
        show (maintainKernel d fuel seed n blockNum protectedSlots schedule m >>= fun s =>
          pure s.shared) = _
        unfold maintainKernel
        rw [hrun, ← hdone (hfin hpath.1.turns)]
        rfl
  · have hfill : Fills d ([], after r) := maintained_fills (hrow r hr)
    exact served_row_mem (Finset.mem_range.mpr hr) hfill

end

/-! ## One round -/

section

variable {d : Sizes} {fuel n : ℕ} {m : Tables} {k : LaunchedRound} {seed : UInt32}

/-- A request with its pool whole, as the lookup leaves it: all that the maintenance relies on. -/
theorem Allocated.int32Row {row : Row} {query : List ℤ} {j : ℕ} {c : List ℤ × Row} (hd : d.Fits)
    (h : Allocated d row query j c) (hr : Ready d row) (hj : j ≤ d.FREE_SLOT_COUNT) : Int32Row d c.2 where
  index_length := by rw [h.index_length]; exact hd.index_i32
  free_length := by rw [h.free_length hr]; exact hd.free_i32
  slots := by
    intro z hz
    obtain ⟨i, hi, rfl⟩ := List.mem_iff_getElem.mp hz
    have hs := h.inverse.symm.sentinel_fwd.read i
    rw [read_of_lt hi] at hs
    have hindex := h.index_length
    have hi32 := hd.index_i32
    by_cases hnone : c.2.slotToIndex[i] = -1
    · omega
    · have htab : tab c.2.slotToIndex i = some c.2.slotToIndex[i].toNat := by
        rw [tab_eq_some, read_of_lt hi]; omega
      have hlt := lt_of_tab_eq_some ((h.inverse.inverse _ _).mpr htab)
      omega
  head := by
    have hf32 := hd.free_i32
    rw [h.freeHead]
    omega

/-- The slots handed out are slots, so that the next maintenance may protect them. -/
theorem Allocated.out_slots {row : Row} {query : List ℤ} {j : ℕ} {c : List ℤ × Row}
    (h : Allocated d row query j c) (hquery : ∀ q ∈ query, InRange d q) :
    ∀ z ∈ c.1, 0 ≤ z ∧ z < d.SLOT_COUNT := by
  intro z hz
  obtain ⟨q, hq, rfl⟩ := h.mem_out.mp hz
  obtain ⟨h0, h1, _⟩ := h.slot_of hq (hquery q hq).1
  exact ⟨h0, h1⟩

/-- The maintenance of a round. -/
theorem maintained_of_round {row : Row} {query : List ℤ} {x : Round} {c : List ℤ × Row}
    {reqId : UInt32} (hd : d.Fits) (hr : Ready d row) (hlen : query.length = d.QUERY_COUNT)
    (hquery : ∀ q ∈ query, InRange d q) (hc : processRow d query row = .ok c)
    (hx : round d fuel reqId query seed row = .ok x) :
    x = ⟨query, seed, c.1, x.after⟩ ∧ Maintained d fuel seed reqId c.1 c.2 x.after := by
  obtain ⟨c', j, hc', _, h⟩ := processRow_spec hd hr hlen hquery
  cases Except.ok.inj (hc.symm.trans hc')
  have hslots := h.out_slots hquery
  have hlast : c.1.length = d.QUERY_COUNT := by rw [h.out, List.length_map, hlen]
  have hcut : round d fuel reqId query seed row =
      (maintainRow d fuel seed reqId c.1 c.2 >>= fun after => pure ⟨query, seed, c.1, after⟩) := by
    unfold round
    rw [hc]
    rfl
  obtain ⟨after, hmaint, hret⟩ := Folds.ok_of_bind (hcut.symm.trans hx)
  cases hret
  have hsame := expectedMaintainRow_eq hd hlast hslots
    (h.int32Row hd hr (h.head_le_free hd hlen)) (fun herr => by cases herr) hmaint
  exact ⟨rfl, hslots, hmaint, hsame⟩

/-- **One round of launches** leaves what the reference computes, and each request has gone
through a round of its own. -/
theorem launchRound_spec (hd : d.Fits) (hrows : ∀ r < n, Addressed d r) (hn : n ≤ 2 ^ 32)
    (hfuel : d.SLOT_COUNT ≤ fuel) (hm : Served d n m) (hk : k.Finishes d n) :
    ∃ t, launchRound d fuel n k m = .ok t ∧ expectedRound d fuel n k m = .ok t ∧
      ∀ r < n, round d fuel (UInt32.ofNat r) (k.query r) k.seed (m.row d arrayBase r) =
          .ok (roundOf d r k t) ∧
        RoundOk d (residentTokens (m.row d arrayBase r)).card (roundOf d r k t) := by
  have hquery : ∀ r < n, (m.asking d n k.query).queryRow d arrayBase r = k.query r :=
    fun r hr => asking_queryRow hr (hk.query_length r hr)
  have hstate : LookupState d n (m.asking d n k.query) := fun r hr => by
    rw [hquery r hr, asking_row]
    exact (hm r hr).1.lookupable hd (hk.query_length r hr) (hk.inRange r hr)
  obtain ⟨s, hlookup, hlooked, hservedRows⟩ := lookup_launch hd (fun r hr => (hrows r hr).exact) hstate
    hk.lookup
  -- each request's round, of which the launches are to make the second half
  have hround : ∀ r, ∃ x, r < n →
      round d fuel (UInt32.ofNat r) (k.query r) k.seed (m.row d arrayBase r) = .ok x ∧
      RoundOk d (residentTokens (m.row d arrayBase r)).card x := by
    intro r
    by_cases hr : r < n
    · obtain ⟨x, hx, _, _, hok⟩ := round_spec hd (hm r hr).1 (hk.query_length r hr) (hk.inRange r hr)
        (hm r hr).2 hfuel (UInt32.ofNat r) k.seed
      exact ⟨x, fun _ => ⟨hx, hok⟩⟩
    · exact ⟨⟨[], 0, [], m.row d arrayBase r⟩, fun hlt => absurd hlt hr⟩
  choose x hx using hround
  have hcut : ∀ r < n, x r = ⟨k.query r, k.seed,
        window s.shared.slotOut (arrayBase d.QUERY_COUNT r) d.QUERY_COUNT, (x r).after⟩ ∧
      Maintained d fuel k.seed (UInt32.ofNat r) (s.shared.handOver.queryRow d arrayBase r)
        (s.shared.handOver.row d arrayBase r) (x r).after := by
    intro r hr
    have hc := hservedRows r hr
    rw [hquery r hr, asking_row] at hc
    exact maintained_of_round hd (hm r hr).1 (hk.query_length r hr) (hk.inRange r hr) hc (hx r hr).1
  obtain ⟨after, hmaint, hexp, hafter⟩ := maintain_launch hd hrows hn (fun r hr => (hcut r hr).2)
    hk.maintain
  refine ⟨(s.shared, after), ?_, ?_, fun r hr => ?_⟩
  · unfold launchRound
    rw [hlookup]
    show (k.maintain.launch d fuel n k.seed s.shared.handOver >>= fun after => pure (s.shared, after)) = _
    rw [hmaint]
    rfl
  · unfold expectedRound
    rw [hlooked]
    show (expectedMaintain d fuel k.seed.toNat n s.shared.handOver >>= fun after =>
      pure (s.shared, after)) = _
    rw [hexp]
    rfl
  · have hof : roundOf d r k (s.shared, after) = x r := by
      rw [(hcut r hr).1]
      unfold roundOf
      rw [hafter r hr]
    rw [hof]
    exact hx r hr

end

/-! ## Runs -/

/-- The rounds of request `r`, as the tables show them. -/
def roundsOf (d : Sizes) (r : ℕ) (ks : List LaunchedRound) (ts : List (Tables × Tables)) : List Round :=
  List.zipWith (roundOf d r) ks ts

section

variable {d : Sizes} {fuel n : ℕ} {m : Tables}

/-- **A run of rounds** on whole tables, with the rounds of each request inside it. -/
theorem launchRounds_spec (hd : d.Fits) (hrows : ∀ r < n, Addressed d r) (hn : n ≤ 2 ^ 32)
    (hfuel : d.SLOT_COUNT ≤ fuel) (hm : Served d n m) {ks : List LaunchedRound}
    (hks : ∀ k ∈ ks, k.Finishes d n) :
    ∃ ts, launchRounds d fuel n ks m = .ok ts ∧ expectedRounds d fuel n ks m = .ok ts ∧
      ∀ r < n, runRounds d fuel (UInt32.ofNat r) (ks.map fun k => (k.query r, k.seed))
          (m.row d arrayBase r) = .ok (roundsOf d r ks ts) ∧
        ∀ x ∈ roundsOf d r ks ts, RoundOk d (residentTokens (m.row d arrayBase r)).card x := by
  induction ks generalizing m with
  | nil => exact ⟨[], rfl, rfl, fun r _ => ⟨rfl, fun x hx => absurd hx (List.not_mem_nil)⟩⟩
  | cons k ks ih =>
      obtain ⟨t, hlaunch, hexpected, hrounds⟩ :=
        launchRound_spec hd hrows hn hfuel hm (hks k List.mem_cons_self)
      -- the pools are whole again, so that the next round finds what this one has found
      have hserved : Served d n t.2 := fun r hr => by
        obtain ⟨_, hok⟩ := hrounds r hr
        refine ⟨hok.ready, ?_⟩
        have hcount : (residentTokens (t.2.row d arrayBase r)).card = _ := hok.residents
        rw [hcount]
        exact (hm r hr).2
      obtain ⟨ts, hlaunches, hexpecteds, hruns⟩ := ih hserved fun k' hk' =>
        hks k' (List.mem_cons_of_mem k hk')
      refine ⟨t :: ts, ?_, ?_, fun r hr => ?_⟩
      · rw [launchRounds, hlaunch]
        show (launchRounds d fuel n ks t.2 >>= fun ts => pure (t :: ts)) = _
        rw [hlaunches]
        rfl
      · rw [expectedRounds, hexpected]
        show (expectedRounds d fuel n ks t.2 >>= fun ts => pure (t :: ts)) = _
        rw [hexpecteds]
        rfl
      · obtain ⟨hround, hok⟩ := hrounds r hr
        obtain ⟨hrun, hall⟩ := hruns r hr
        refine ⟨?_, fun x hx => ?_⟩
        · rw [List.map_cons, runRounds, hround]
          show (runRounds d fuel (UInt32.ofNat r) _ (t.2.row d arrayBase r) >>= fun rs =>
            pure (roundOf d r k t :: rs)) = _
          rw [hrun]
          rfl
        · rcases List.mem_cons.mp hx with rfl | hx
          · exact hok
          · rw [← hok.residents]
            exact hall x hx

end

/-- **The pools of all requests over a whole run of launches.** From tables whose pools are whole,
with enough residents in each, every run of rounds goes through, on any numbers of cores, in any
interleaving of theirs, with the maintenance on either path. Each launch leaves what the reference
computes; and the tables of a request are those of a run of its own rounds, after each of which its
pool is whole, as many tokens are resident as at the start, and each queried token has the slot
returned for it. -/
theorem launchRounds_keep_pools (reqNum : ℕ) (hreq : reqNum ≤ 2 ^ 15) (m : Tables)
    (hm : Served hbmSizes reqNum m) (ks : List LaunchedRound)
    (hks : ∀ k ∈ ks, k.Finishes hbmSizes reqNum) (fuel : ℕ) (hfuel : hbmSizes.SLOT_COUNT ≤ fuel) :
    ∃ ts, launchRounds hbmSizes fuel reqNum ks m = .ok ts ∧
      expectedRounds hbmSizes fuel reqNum ks m = .ok ts ∧
      ∀ r < reqNum, runRounds hbmSizes fuel (UInt32.ofNat r) (ks.map fun k => (k.query r, k.seed))
          (m.row hbmSizes arrayBase r) = .ok (roundsOf hbmSizes r ks ts) ∧
        ∀ x ∈ roundsOf hbmSizes r ks ts,
          RoundOk hbmSizes (residentTokens (m.row hbmSizes arrayBase r)).card x := by
  exact launchRounds_spec hbmSizes_fits (fun r hr => addressed_hbmSizes (by omega)) (by omega) hfuel hm
    hks

/-- Tables in which every request has the same row. -/
def repeatedRow (d : Sizes) (row : Row) : Tables where
  index := fun a => row.index.getD (a % d.INDEX_SIZE) 0
  slotToIndex := fun a => row.slotToIndex.getD (a % d.SLOT_COUNT) 0
  freeSlots := fun a => row.freeSlots.getD (a % d.FREE_SLOT_COUNT) 0
  freeHead := fun _ => row.freeHead
  query := fun _ => 0
  slotOut := fun _ => 0

/-- Every request of the example has the same row. -/
theorem window_repeated {xs : List ℤ} {len : ℕ} (hlen : xs.length = len) (r : ℕ) :
    window (fun a => xs.getD (a % len) 0) (arrayBase len r) len = xs := by
  unfold window arrayBase
  apply List.ext_getElem
  · rw [List.length_map, List.length_range, hlen]
  · intro i hi hi'
    obtain ⟨_, hmod⟩ := div_mod_of_row (r := r) (hlen ▸ hi')
    rw [List.getElem_map, List.getElem_range]
    dsimp only
    rw [hmod, List.getD_eq_getElem _ _ hi']

/-- And that row is the one it was made with. -/
theorem repeatedRow_row {d : Sizes} {row : Row} (hindex : row.index.length = d.INDEX_SIZE)
    (hslot : row.slotToIndex.length = d.SLOT_COUNT) (hfree : row.freeSlots.length = d.FREE_SLOT_COUNT)
    (r : ℕ) : (repeatedRow d row).row d arrayBase r = row := by
  unfold Tables.row repeatedRow
  dsimp only
  rw [window_repeated hindex, window_repeated hslot, window_repeated hfree]

/-- So the tables of the example are in order for every request. -/
theorem served_repeatedRow {d : Sizes} {row : Row} (hr : Ready d row)
    (hres : d.QUERY_COUNT ≤ (residentTokens row).card) (n : ℕ) : Served d n (repeatedRow d row) := by
  intro r _
  rw [repeatedRow_row hr.index_length hr.slot_length hr.free_length]
  exact ⟨hr, hres⟩

/-- A round of misses. -/
def missRound (seed : UInt32) (blockNum : ℕ) (schedule : List ℕ) (maintain : MaintainPath) :
    LaunchedRound where
  query := missQuery hbmSizes
  seed := seed
  blockNum := blockNum
  schedule := schedule
  maintain := maintain

/-- The round of the example comes to an end. -/
theorem missRound_finishes {n : ℕ} (seed : UInt32) {blockNum : ℕ} {schedule : List ℕ}
    {maintain : MaintainPath} (hlookup : FairTurns n blockNum schedule)
    (hmaintain : maintain.Finishes hbmSizes n) :
    (missRound seed blockNum schedule maintain).Finishes hbmSizes n := by
  have hpos : 0 < hbmSizes.INDEX_SIZE := by decide
  have hquery : ∀ r, ((missRound seed blockNum schedule maintain).query r).length =
        hbmSizes.QUERY_COUNT ∧
      ∀ q ∈ (missRound seed blockNum schedule maintain).query r, InRange hbmSizes q := by
    intro r
    dsimp only [missRound]
    exact missQuery_inRange hpos r
  exact ⟨hlookup, hmaintain, fun r _ => (hquery r).1, fun r _ => (hquery r).2⟩

/-- Two requests for two rounds, the maintenance first on the host, then on two cores. -/
theorem launchRounds_keep_pools_two :
    let rounds := [missRound 1 2 [0, 1, 1, 0] (.host (clearProtectedSlots hbmSizes)),
      missRound 2 1 [0, 0] (.cores 2 (fun _ => clearProtectedSlots hbmSizes) [1, 0, 0, 1])]
    let m := repeatedRow hbmSizes (indexCase hbmSizes 8192)
    ∃ ts, launchRounds hbmSizes 10240 2 rounds m = .ok ts ∧
      expectedRounds hbmSizes 10240 2 rounds m = .ok ts ∧
      ∀ r < 2, runRounds hbmSizes 10240 (UInt32.ofNat r) (rounds.map fun k => (k.query r, k.seed))
          (m.row hbmSizes arrayBase r) = .ok (roundsOf hbmSizes r rounds ts) ∧
        ∀ x ∈ roundsOf hbmSizes r rounds ts,
          RoundOk hbmSizes (residentTokens (m.row hbmSizes arrayBase r)).card x := by
  intro rounds m
  have hindex : 8192 ≤ hbmSizes.INDEX_SIZE := by decide
  have hm : Served hbmSizes 2 m := by
    apply served_repeatedRow (indexCase_ready hindex (by decide))
    rw [indexCase_residents hindex]
    decide
  have hwords : Bitmap hbmSizes (clearProtectedSlots hbmSizes) := List.length_replicate
  have hfair : ∀ schedule ∈ [[0, 1, 1, 0], [1, 0, 0, 1]], FairTurns 2 2 schedule := by
    intro schedule hmem
    rcases List.mem_cons.mp hmem with rfl | hmem
    · exact ⟨by decide, by decide, by decide⟩
    · rw [List.mem_singleton.mp hmem]
      exact ⟨by decide, by decide, by decide⟩
  refine launchRounds_keep_pools 2 (by decide) m hm rounds (fun k hk => ?_) 10240 (by decide)
  rcases List.mem_cons.mp hk with rfl | hk
  · exact missRound_finishes 1 (hfair _ (by decide)) hwords
  · rw [List.mem_singleton.mp hk]
    exact missRound_finishes 2 ⟨by decide, by decide, by decide⟩
      ⟨hfair _ (by decide), fun _ _ => hwords⟩

end AsuAscend.HbmIndex
