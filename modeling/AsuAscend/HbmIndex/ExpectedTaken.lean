/-
What `expected_maintain` makes of the tables of all requests.

The reference indexes the row of a request, so that a negative id counts from the row's
end, and numpy refuses an id past either end. Where it goes through, it takes back the
slots that the kernels' walk takes back (`expectedRow_ok`), and clears the elements that
their ids name in the request's own row. `expectedTaken` puts the requests together: the
slots, the free lists and the heads come out as those of `takenAll`, and only the index is
a matter of which elements have been named (`expectedMaintain_ok`, `expectedMaintain_ends`).

## What the reference asks for

* enough unprotected occupied slots, as the kernels do: its loop has no bound either;
* a free list with room for all of them, since numpy checks the store into it;
* ids that are an index of the row, from its start or from its end (`InRow`).

`Takable` is the second and third of these for one slot, `Expectable` all of it for all requests.
`expectedMaintain_ok` and `expectedMaintain_ends` say that the reference goes through exactly then.
-/
import AsuAscend.HbmIndex.ExpectedMaintain
import AsuAscend.HbmIndex.TakenBack

set_option autoImplicit false

open Function (update)
open MachineWords SentinelTable StrideCores CircularOrder CircularSweep

namespace AsuAscend.HbmIndex

/-- The body of the loop over the requests in `expected_maintain`. -/
def expectedMaintainOp (d : Sizes) (fuel : ℕ) (seed : ℤ) : RowOp Unit :=
  fun _ req_id last_query_slots row => do
    let row ← expectedMaintainRow d fuel seed req_id last_query_slots row
    return ((), [], row)

def expectedMaintain (d : Sizes) (fuel : ℕ) (seed : ℤ) (reqNum : ℕ) (m : Tables) :
    Except Halt Tables := do
  let (_, m) ← (List.range reqNum).foldlM (serveRow d arrayBase (expectedMaintainOp d fuel seed)) ((), m)
  return m

/-! ## One request -/

/-- The element of the index that the reference clears: a negative id counts from the end of the
request's own row. -/
def ownElement (d : Sizes) (r : ℕ) (id : ℤ) : ℕ :=
  arrayBase d.INDEX_SIZE r + if 0 ≤ id then id.toNat else (d.INDEX_SIZE + id).toNat

/-- An id that numpy accepts. -/
def InRow (d : Sizes) (id : ℤ) : Prop := -d.INDEX_SIZE ≤ id ∧ id < d.INDEX_SIZE

instance (d : Sizes) (id : ℤ) : Decidable (InRow d id) := inferInstanceAs (Decidable (_ ∧ _))

section

variable (d : Sizes) (m : Tables) (r : ℕ)

def ownNamedBy (vs : List ℕ) : Finset ℕ := (vs.map fun v => ownElement d r (idOf d m r v)).toFinset

/-- A request's row, after the reference has taken the slots `vs` back. -/
def expectedAfter (vs : List ℕ) : Row :=
  { evictAll (m.slotRow d r) vs with
    index := window (cleared (ownNamedBy d m r vs) m.index) (arrayBase d.INDEX_SIZE r) d.INDEX_SIZE }

end

section

variable {d : Sizes} {n r fuel : ℕ} {seed : UInt32} {m : Tables} {start : ℕ}

/-- An entry of a row, in the flat table. -/
theorem getElem_window (t : ℕ → ℤ) (base : ℕ) {len j : ℕ} (h : j < (window t base len).length) :
    (window t base len)[j] = t (base + j) := by
  simp [window]

/-- A store into a row is one into the flat table. -/
theorem window_set (t : ℕ → ℤ) (base : ℕ) {len i : ℕ} (v : ℤ) :
    (window t base len).set i v = window (update t (base + i) v) base len := by
  apply List.ext_getElem
  · rw [List.length_set, length_window, length_window]
  · intro j h1 h2
    rw [List.getElem_set, getElem_window, getElem_window]
    by_cases hj : i = j
    · rw [if_pos hj, hj, Function.update_self]
    · rw [if_neg hj, Function.update_of_ne (by omega)]

/-- `xs[i] = v` on the index row. -/
theorem setItem_window (t : ℕ → ℤ) (d : Sizes) (r : ℕ) (id v : ℤ) :
    setItem (window t (arrayBase d.INDEX_SIZE r) d.INDEX_SIZE) id v =
      if InRow d id then
        .ok (window (update t (ownElement d r id) v) (arrayBase d.INDEX_SIZE r) d.INDEX_SIZE)
      else .error .outside := by
  unfold setItem ownElement setValue
  rw [length_window]
  by_cases h0 : 0 ≤ id
  · rw [if_pos h0, if_pos h0]
    by_cases h1 : id.toNat < d.INDEX_SIZE
    · rw [if_pos h1, if_pos (show InRow d id from ⟨by omega, by omega⟩), window_set]
    · rw [if_neg h1, if_neg fun h : InRow d id => h1 (by have := h.2; omega)]
  · rw [if_neg h0, if_neg h0]
    by_cases h1 : -(d.INDEX_SIZE : ℤ) ≤ id
    · have hlt : ((d.INDEX_SIZE : ℤ) + id).toNat < d.INDEX_SIZE := by omega
      rw [if_pos h1, if_pos hlt, if_pos (show InRow d id from ⟨h1, by omega⟩), window_set]
    · rw [if_neg h1, if_neg fun h : InRow d id => h1 h.1]

/-- With nothing taken the row is as it was. -/
theorem expectedAfter_nil : expectedAfter d m r [] = m.row d arrayBase r := by
  unfold expectedAfter ownNamedBy
  rw [List.map_nil, List.toFinset_nil, cleared_empty]
  rfl

/-- A slot that the reference can take: its id is accepted, and the free list is long enough. -/
def Takable (d : Sizes) (m : Tables) (r v : ℕ) : Prop :=
  m.freeHead r ≤ d.FREE_SLOT_COUNT ∧ InRow d (idOf d m r v)

instance (d : Sizes) (m : Tables) (r v : ℕ) : Decidable (Takable d m r v) :=
  inferInstanceAs (Decidable (_ ∧ _))

/-- The state of the reference's walk after `k` turns. -/
def expectedState (d : Sizes) (m : Tables) (r start k : ℕ) : ExpectedWalk where
  offset := k
  row := expectedAfter d m r (found d.SLOT_COUNT start (Takes d m r) k)

/-- With one slot more, the reference names one element more. -/
theorem ownNamedBy_concat (vs : List ℕ) (slot : ℕ) : ownNamedBy d m r (vs ++ [slot]) =
    insert (ownElement d r (idOf d m r slot)) (ownNamedBy d m r vs) := by
  unfold ownNamedBy
  ext a
  simp [eq_comm]

/-- A turn of the reference at a slot that has been taken, or that is not to be taken. -/
theorem expectedTurn_pass {vs : List ℕ} {offset : ℕ} (hvs : ∀ v ∈ vs, v < d.SLOT_COUNT)
    (hslot : (start + offset) % d.SLOT_COUNT < d.SLOT_COUNT)
    (hno : ¬ ((start + offset) % d.SLOT_COUNT ∉ vs ∧ Takes d m r ((start + offset) % d.SLOT_COUNT))) :
    expectedTurn d (m.queryRow d arrayBase r).toFinset start ⟨offset, expectedAfter d m r vs⟩ =
      .ok ⟨offset + 1, expectedAfter d m r vs⟩ := by
  unfold expectedTurn
  dsimp only [expectedAfter]
  generalize (start + offset) % d.SLOT_COUNT = slot at hslot hno ⊢
  rw [getValue_ok (by rw [length_slots_evictAll]; exact hslot), read_evictAll hvs]
  simp only [bind, Except.bind, pure, Except.pure]
  by_cases hmem : slot ∈ vs
  · -- it has been taken, and is empty now
    rw [if_pos hmem, if_neg fun h => h.1 rfl]
  · -- nobody has taken it, but it is empty or protected
    rw [if_neg hmem, if_neg]
    exact fun h => hno ⟨hmem, h.1, fun hq => h.2 (List.mem_toFinset.mpr hq)⟩

/-- A turn of the reference at a slot that is to be taken. The index row and the free list are
indexed the way Python indexes a list, and either may refuse. -/
theorem expectedTurn_take (hd : d.Fits) {vs : List ℕ} {offset : ℕ} (hvs : ∀ v ∈ vs, v < d.SLOT_COUNT)
    (hslot : (start + offset) % d.SLOT_COUNT < d.SLOT_COUNT)
    (hmore : (vs.length : ℤ) < m.freeHead r) (hgood : ∀ v ∈ vs, Takable d m r v)
    (hmem : (start + offset) % d.SLOT_COUNT ∉ vs)
    (hp : Takes d m r ((start + offset) % d.SLOT_COUNT)) :
    expectedTurn d (m.queryRow d arrayBase r).toFinset start ⟨offset, expectedAfter d m r vs⟩ =
      if Takable d m r ((start + offset) % d.SLOT_COUNT) then
        .ok ⟨offset + 1, expectedAfter d m r (vs ++ [(start + offset) % d.SLOT_COUNT])⟩
      else .error .outside := by
  have hf32 := hd.free_i32
  have hcount : (evictAll (m.slotRow d r) vs).freeHead = m.freeHead r - vs.length :=
    evictAll_freeHead _ _
  have hfree : (evictAll (m.slotRow d r) vs).freeSlots.length = d.FREE_SLOT_COUNT :=
    length_free_evictAll vs
  unfold expectedTurn
  dsimp only [expectedAfter]
  generalize (start + offset) % d.SLOT_COUNT = slot at hslot hmem hp ⊢
  rw [getValue_ok (by rw [length_slots_evictAll]; exact hslot), read_evictAll hvs, if_neg hmem]
  simp only [bind, Except.bind, pure, Except.pure]
  have hguard : (slot : ℤ) ∉ (m.queryRow d arrayBase r).toFinset := by
    rw [List.mem_toFinset]
    exact hp.2
  rw [if_pos ⟨hp.1, hguard⟩, setValue_ok (by rw [length_slots_evictAll]; exact hslot)]
  dsimp only
  rw [setItem_window]
  by_cases hid : InRow d (idOf d m r slot)
  · rw [if_pos hid]
    -- one element of the index is cleared, one entry of the free list is stored
    dsimp only
    have hnonneg : 0 ≤ (evictAll (m.slotRow d r) vs).freeHead - 1 := by omega
    by_cases hle : m.freeHead r ≤ d.FREE_SLOT_COUNT
    · have htop : u32 ((evictAll (m.slotRow d r) vs).freeHead - 1) =
          ((evictAll (m.slotRow d r) vs).freeHead - 1).toNat := u32_of_nonneg (by omega) (by omega)
      unfold setItem
      rw [if_pos hnonneg, setValue_ok (by rw [hfree]; omega), if_pos ⟨hle, hid⟩, ownNamedBy_concat,
        ← update_cleared, evictAll_concat]
      dsimp only [evictSlot]
      rw [htop]
    · -- the first slot would be stored past the end of the free list
      have hnone : vs = [] := by
        by_contra hne
        obtain ⟨v, hv⟩ := List.exists_mem_of_ne_nil vs hne
        exact hle (hgood v hv).1
      have hout : ¬ ((evictAll (m.slotRow d r) vs).freeHead - 1).toNat <
          (evictAll (m.slotRow d r) vs).freeSlots.length := by
        rw [hfree, hcount, hnone, List.length_nil]
        omega
      unfold setItem setValue
      rw [if_pos hnonneg, if_neg hout, if_neg fun h => hle h.1]
  · -- an id that names no entry of the row: the reference raises
    rw [if_neg hid, if_neg fun h => hid h.2]

/-- One turn of the reference's walk. -/
theorem expectedTurn_spec (hd : d.Fits) (k : ℕ)
    (hmore : ((found d.SLOT_COUNT start (Takes d m r) k).length : ℤ) < m.freeHead r)
    (hgood : ∀ v ∈ found d.SLOT_COUNT start (Takes d m r) k, Takable d m r v) :
    expectedTurn d (m.queryRow d arrayBase r).toFinset start (expectedState d m r start k) =
      if (start + k) % d.SLOT_COUNT ∉ found d.SLOT_COUNT start (Takes d m r) k ∧
          Takes d m r ((start + k) % d.SLOT_COUNT) ∧ ¬ Takable d m r ((start + k) % d.SLOT_COUNT)
        then .error .outside
      else .ok (expectedState d m r start (k + 1)) := by
  have hslot : (start + k) % d.SLOT_COUNT < d.SLOT_COUNT := Nat.mod_lt _ hd.slot_pos
  have hvs : ∀ v ∈ found d.SLOT_COUNT start (Takes d m r) k, v < d.SLOT_COUNT :=
    fun v hv => (mem_found hd.slot_pos hv).1
  -- either the slot of this turn is found now, or the list stays as it is
  have hsucc : found d.SLOT_COUNT start (Takes d m r) (k + 1) =
      found d.SLOT_COUNT start (Takes d m r) k ++ _ := found_succ hd.slot_pos k
  unfold expectedState
  by_cases hnew : (start + k) % d.SLOT_COUNT ∉ found d.SLOT_COUNT start (Takes d m r) k ∧
      Takes d m r ((start + k) % d.SLOT_COUNT)
  · rw [if_pos hnew] at hsucc
    rw [expectedTurn_take hd hvs hslot hmore hgood hnew.1 hnew.2, hsucc]
    by_cases hgood' : Takable d m r ((start + k) % d.SLOT_COUNT)
    · rw [if_pos hgood', if_neg fun h => h.2.2 hgood']
    · rw [if_neg hgood', if_pos ⟨hnew.1, hnew.2, hgood'⟩]
  · rw [if_neg hnew, List.append_nil] at hsucc
    rw [expectedTurn_pass hvs hslot hnew, hsucc, if_neg fun h => hnew ⟨h.1, h.2.1⟩]

/-- The reference's `while` is a sweep over the slots. -/
theorem expectedWalk_eq_sweep (protected_slots : Finset ℤ) (c : ExpectedWalk) :
    expectedWalk d protected_slots start fuel c =
      (sweep (fun c : ExpectedWalk => c.row.freeHead > 0) (expectedTurn d protected_slots start)
        .outOfFuel fuel c >>= fun c => .ok c.row) := by
  induction fuel generalizing c with
  | zero =>
      unfold expectedWalk sweep
      split_ifs
      · rfl
      · rfl
  | succ fuel ih =>
      unfold expectedWalk sweep
      split_ifs
      · rw [bind_assoc]
        exact congrArg _ (funext ih)
      · rfl

/-- The reference's walk is the same sweep; what is no good is an id that numpy refuses. -/
theorem sweeps_expected (hd : d.Fits) :
    Sweeps d.SLOT_COUNT start (Takes d m r) (Takable d m r) (m.freeHead r).toNat
      (fun c : ExpectedWalk => c.row.freeHead > 0)
      (expectedTurn d (m.queryRow d arrayBase r).toFinset start) .outside
      (expectedState d m r start) := by
  refine Sweeps.of_turn hd.slot_pos (fun k => ?_) fun k hmore hgood =>
    expectedTurn_spec hd k (by omega) hgood
  have hhead : (expectedState d m r start k).row.freeHead =
      m.freeHead r - (found d.SLOT_COUNT start (Takes d m r) k).length := evictAll_freeHead _ _
  rw [hhead]
  omega

variable {pyseed : ℤ}

/-- So its pass over a request is that sweep, from the hashed start on. -/
theorem expectedMaintainRow_eq_sweep :
    expectedMaintainRow d fuel pyseed r (m.queryRow d arrayBase r) (m.row d arrayBase r) =
      (sweep (fun c : ExpectedWalk => c.row.freeHead > 0)
        (expectedTurn d (m.queryRow d arrayBase r).toFinset
          (walkStart d (seedWord pyseed) (UInt32.ofNat r))) .outOfFuel fuel
        (expectedState d m r (walkStart d (seedWord pyseed) (UInt32.ofNat r)) 0) >>=
          fun c => .ok c.row) := by
  have hstate : ∀ start, expectedState d m r start 0 = ⟨0, m.row d arrayBase r⟩ := by
    intro start
    unfold expectedState
    rw [found_zero, expectedAfter_nil]
  unfold expectedMaintainRow
  dsimp only
  rw [expectedStart_eq, expectedWalk_eq_sweep, hstate]

/-- **Where the reference goes through a request**, it has found enough slots, numpy has taken
their ids, and the slots are back in the free list. -/
theorem expectedRow_ok (hd : d.Fits) {row' : Row}
    (h : expectedMaintainRow d fuel pyseed r (m.queryRow d arrayBase r) (m.row d arrayBase r) = .ok row') :
    (takenBack d (seedWord pyseed) m r).length = (m.freeHead r).toNat ∧
      (∀ v ∈ takenBack d (seedWord pyseed) m r, Takable d m r v) ∧
      row' = expectedAfter d m r (takenBack d (seedWord pyseed) m r) := by
  rw [expectedMaintainRow_eq_sweep] at h
  obtain ⟨c, hsweep, hc⟩ := Folds.ok_of_bind h
  cases hc
  obtain ⟨henough, hgood, k, hfound, rfl⟩ := (sweeps_expected hd).ok hsweep
  rw [takenBack_eq]
  refine ⟨by rw [List.length_take]; omega, hgood, ?_⟩
  unfold expectedState
  rw [hfound]

/-- The other way round: with enough slots, all of them takable, the reference goes through. -/
theorem expectedRow_ends (hd : d.Fits)
    (henough : (takenBack d (seedWord pyseed) m r).length = (m.freeHead r).toNat)
    (hgood : ∀ v ∈ takenBack d (seedWord pyseed) m r, Takable d m r v) (hfuel : d.SLOT_COUNT ≤ fuel) :
    expectedMaintainRow d fuel pyseed r (m.queryRow d arrayBase r) (m.row d arrayBase r) =
      .ok (expectedAfter d m r (takenBack d (seedWord pyseed) m r)) := by
  rw [takenBack_eq, List.length_take] at henough
  rw [takenBack_eq] at hgood ⊢
  obtain ⟨k, hfound, hsweep⟩ := (sweeps_expected hd).ends .outOfFuel (by omega) hgood hfuel
  rw [expectedMaintainRow_eq_sweep, hsweep]
  unfold expectedState
  rw [hfound]
  rfl

end

/-! ## All requests -/

/-- The elements of the index that the reference clears. -/
def ownNamed (d : Sizes) (seed : UInt32) (m : Tables) (done : Finset ℕ) : Finset ℕ :=
  done.biUnion fun r => ownNamedBy d m r (takenBack d seed m r)

/-- The tables, with the slots of some requests taken back by the reference. -/
def expectedTaken (d : Sizes) (seed : UInt32) (m : Tables) (done : Finset ℕ) : Tables :=
  { takenAll d pointerAdd seed m done with index := cleared (ownNamed d seed m done) m.index }

/-- The reference goes through the first `n` requests. -/
structure Expectable (d : Sizes) (seed : UInt32) (n : ℕ) (m : Tables) : Prop where
  enough : Enough d seed n m
  takable : ∀ r < n, ∀ v ∈ takenBack d seed m r, Takable d m r v

section

variable {d : Sizes} {n r fuel : ℕ} {seed : ℤ} {m : Tables}

/-- What the reference makes of a request. -/
def expectedResult (d : Sizes) (fuel : ℕ) (seed : ℤ) (m : Tables) (r : ℕ) : Except Halt (List ℤ × Row) := do
  let row ← expectedMaintainRow d fuel seed r (m.queryRow d arrayBase r) (m.row d arrayBase r)
  return ([], row)

/-- It leaves a row of the lengths that it was given. -/
theorem expectedAfter_fills (vs : List ℕ) : Fills d ([], expectedAfter d m r vs) := by
  obtain ⟨_, hslot, hfree⟩ := evictAll_lengths (m.slotRow d r) vs
  exact ⟨length_window _ _ _, hslot.trans (rowLengths_row m arrayBase).slot,
    hfree.trans (rowLengths_row m arrayBase).free, Nat.zero_le _⟩

/-- The reference works on each request alone, and carries nothing over. -/
theorem computes_expected (hd : d.Fits) :
    Computes d (expectedMaintainOp d fuel seed) (fun _ => True) m (expectedResult d fuel seed m) n := by
  intro r hr
  refine ⟨fun mem _ => ⟨(), trivial, ?_⟩, fun c hc => ?_⟩
  · unfold expectedMaintainOp expectedResult
    rw [bind_assoc]
    rfl
  · obtain ⟨row, hrow, hc⟩ := Folds.ok_of_bind hc
    cases hc
    rw [(expectedRow_ok hd hrow).2.2]
    exact expectedAfter_fills _

/-- An element that a request names lies in its row. -/
theorem ownElement_row {id : ℤ} (hid : InRow d id) :
    ownElement d r id / d.INDEX_SIZE = r ∧ ownElement d r id % d.INDEX_SIZE < d.INDEX_SIZE := by
  obtain ⟨hlow, hhigh⟩ := hid
  unfold ownElement arrayBase
  have hlt : (if 0 ≤ id then id.toNat else (d.INDEX_SIZE + id).toNat) < d.INDEX_SIZE := by
    split_ifs <;> omega
  obtain ⟨hdiv, hmod⟩ := div_mod_of_row (r := r) hlt
  rw [hdiv, hmod]
  refine ⟨rfl, ?_⟩
  split_ifs <;> omega

/-- The index rows put together. -/
theorem replaced_expected (hindex : 0 < d.INDEX_SIZE) {word : UInt32}
    (htakable : ∀ r < n, ∀ v ∈ takenBack d word m r, Takable d m r v) :
    replaced d.INDEX_SIZE (fun r => (expectedAfter d m r (takenBack d word m r)).index)
      (Finset.range n) m.index = cleared (ownNamed d word m (Finset.range n)) m.index := by
  -- what a request names lies in its own row
  have hrow : ∀ r < n, ∀ a ∈ ownNamedBy d m r (takenBack d word m r), a / d.INDEX_SIZE = r := by
    intro r hr a ha
    obtain ⟨v, hv, rfl⟩ := List.mem_map.mp (List.mem_toFinset.mp ha)
    exact (ownElement_row (htakable r hr v hv).2).1
  funext a
  have hmod : a % d.INDEX_SIZE < d.INDEX_SIZE := Nat.mod_lt _ hindex
  -- so an element is cleared exactly if the request of its row names it
  have hnames : a ∈ ownNamed d word m (Finset.range n) ↔ a / d.INDEX_SIZE < n ∧
      a ∈ ownNamedBy d m (a / d.INDEX_SIZE) (takenBack d word m (a / d.INDEX_SIZE)) := by
    unfold ownNamed
    rw [Finset.mem_biUnion]
    constructor
    · rintro ⟨r, hr, ha⟩
      rw [hrow r (Finset.mem_range.mp hr) a ha]
      exact ⟨Finset.mem_range.mp hr, ha⟩
    · rintro ⟨hr, ha⟩
      exact ⟨_, Finset.mem_range.mpr hr, ha⟩
  -- an element of a row that has been served, at its place in the row
  by_cases hr : a / d.INDEX_SIZE < n
  · have hlen : (expectedAfter d m (a / d.INDEX_SIZE) (takenBack d word m (a / d.INDEX_SIZE))).index.length =
        d.INDEX_SIZE := length_window _ _ _
    unfold replaced
    rw [if_pos ⟨Finset.mem_range.mpr hr, by rw [hlen]; exact hmod⟩,
      List.getD_eq_getElem _ _ (by rw [hlen]; exact hmod)]
    have hat : arrayBase d.INDEX_SIZE (a / d.INDEX_SIZE) + a % d.INDEX_SIZE = a := by
      unfold arrayBase
      rw [Nat.mul_comm]
      exact Nat.div_add_mod a d.INDEX_SIZE
    unfold expectedAfter
    dsimp only
    rw [getElem_window, hat]
    unfold cleared
    simp only [hnames, hr, true_and]
  -- behind the rows nothing is cleared
  · unfold replaced cleared
    rw [if_neg fun h => hr (Finset.mem_range.mp h.1), if_neg fun h => hr (hnames.mp h).1]

/-- The requests of the reference, put together. -/
theorem served_expected (hindex : 0 < d.INDEX_SIZE) {word : UInt32}
    (htakable : ∀ r < n, ∀ v ∈ takenBack d word m r, Takable d m r v) :
    m.served d (fun r => ([], expectedAfter d m r (takenBack d word m r))) (Finset.range n) =
      expectedTaken d word m (Finset.range n) := by
  unfold Tables.served expectedTaken takenAll
  ext a
  · exact congrFun (replaced_expected hindex htakable) a
  · rfl
  · rfl
  · show (if a ∈ Finset.range n then (evictAll _ _).freeHead else _) = _
    rw [evictAll_freeHead]
    rfl
  · rfl
  · show replaced d.QUERY_COUNT (fun _ => []) (Finset.range n) m.slotOut a = m.slotOut a
    exact if_neg fun h => absurd h.2 (Nat.not_lt_zero _)

/-- The rows put together are the tables of `expectedTaken`. -/
theorem expectedMaintain_of_rows (hd : d.Fits) (hindex : 0 < d.INDEX_SIZE)
    (htakable : ∀ r < n, ∀ v ∈ takenBack d (seedWord seed) m r, Takable d m r v)
    (hrows : ∀ r < n, expectedResult d fuel seed m r =
      .ok ([], expectedAfter d m r (takenBack d (seedWord seed) m r))) :
    expectedMaintain d fuel seed n m = .ok (expectedTaken d (seedWord seed) m (Finset.range n)) := by
  obtain ⟨mem, hloop, _⟩ := ((computes_expected hd).served hrows).loop
    (fun r _ => exact_arrayBase d r) () trivial
  unfold expectedMaintain
  rw [hloop, served_expected hindex htakable]
  rfl

/-- **Where the reference ends**, enough slots could be taken back, numpy took their ids, and this is
what it leaves. -/
theorem expectedMaintain_ok (hd : d.Fits) (hindex : 0 < d.INDEX_SIZE) {m' : Tables}
    (h : expectedMaintain d fuel seed n m = .ok m') :
    Expectable d (seedWord seed) n m ∧ m' = expectedTaken d (seedWord seed) m (Finset.range n) := by
  obtain ⟨s, hloop, hs⟩ := Folds.ok_of_bind (f := fun s : Unit × Tables => pure s.2) h
  obtain ⟨res, hres⟩ := (computes_expected hd).rows_ok (fun r _ => exact_arrayBase d r) trivial hloop
  have hrow : ∀ r < n, ((takenBack d (seedWord seed) m r).length = (m.freeHead r).toNat ∧
      ∀ v ∈ takenBack d (seedWord seed) m r, Takable d m r v) ∧
      expectedResult d fuel seed m r = .ok ([], expectedAfter d m r (takenBack d (seedWord seed) m r)) := by
    intro r hr
    obtain ⟨row, hrow, hout⟩ := Folds.ok_of_bind (hres r hr)
    obtain ⟨henough, hgood, hafter⟩ := expectedRow_ok hd hrow
    refine ⟨⟨henough, hgood⟩, ?_⟩
    unfold expectedResult
    rw [hrow, hafter]
    rfl
  have hall := expectedMaintain_of_rows hd hindex (fun r hr => (hrow r hr).1.2) fun r hr => (hrow r hr).2
  rw [h] at hall
  exact ⟨⟨fun r hr => (hrow r hr).1.1, fun r hr => (hrow r hr).1.2⟩, Except.ok.inj hall⟩

/-- **The reference ends** if enough slots can be taken back and numpy takes their ids. -/
theorem expectedMaintain_ends (hd : d.Fits) (hindex : 0 < d.INDEX_SIZE)
    (h : Expectable d (seedWord seed) n m) (hfuel : d.SLOT_COUNT ≤ fuel) :
    expectedMaintain d fuel seed n m = .ok (expectedTaken d (seedWord seed) m (Finset.range n)) := by
  refine expectedMaintain_of_rows hd hindex h.takable fun r hr => ?_
  unfold expectedResult
  rw [expectedRow_ends hd (h.enough r hr) (h.takable r hr) hfuel]
  rfl

end

end AsuAscend.HbmIndex
