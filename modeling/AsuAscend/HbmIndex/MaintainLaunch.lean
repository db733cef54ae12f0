/-
The maintenance of all requests: on the host CPU, on the cores, and `expected_maintain`.

All three take back the same slots of a request, `takenBack`, and leave the same slot
tables, free lists and heads. They differ in the element of the index that they clear for
an id. The reference clears element `id` of the request's own row, and a negative id counts
from the end of that row. The kernels add the id, cast to `uint32_t`, to a 32-bit product of
the request id and the row's length: that is the same element as long as the product does
not wrap and the id is not negative.

## Which elements are named

The passes write `-1` to the elements that they name and read no element of the index, so
that agreement on every content of the index is agreement on what is named. The host names
an element of another row for a negative id already in the first request, where nothing has
wrapped; a core stays below `2 ^ 32` and never gets to the row of a request from
`2 ^ 32 / INDEX_SIZE` on. `maintain_agrees_iff` says for which inputs the two namings come to
the same.

## The exact condition

`PassesEnd` says that all three passes come to an end. Under it they agree on every content of the
index if and only if, for each slot that is taken back, the kernels name the element that the
reference names (`RightElement`), or name another one where it does not show, because both are
cleared for other slots anyway (`Unnoticed`). `agrees_iff_rightly` is the step from the sets of
named elements to the ids.

`maintain_wraps` is an input on which request `2 ^ 32 / INDEX_SIZE` has something to take back: the
base of its index row has wrapped to 0, and the kernels clear an element of the first row.
-/
import AsuAscend.HbmIndex.ExpectedTaken

set_option autoImplicit false

open MachineWords SentinelTable StrideCores CircularOrder CircularSweep

namespace AsuAscend.HbmIndex

/-! ## Agreement -/

section

variable (d : Sizes) (reqNum : ℕ) (seed : ℤ) (m : Tables)

/-- The host's pass ends, and leaves `m'`. What its bitmap holds at first is not known. -/
def HostLeaves (m' : Tables) : Prop := ∃ fuel words, Bitmap d words ∧
  maintainEviction d fuel (seedWord seed) reqNum words m = .ok m'

/-- The cores, however many there are and however they take turns, have all finished and leave
`m'`. -/
def CoresLeave (m' : Tables) : Prop := ∃ fuel blockNum buffers schedule s, 0 < blockNum ∧
  (∀ c < blockNum, Bitmap d (buffers c)) ∧ (∀ c ∈ schedule, c < blockNum) ∧
  maintainKernel d fuel (seedWord seed) reqNum blockNum buffers schedule m = .ok s ∧
  Finished reqNum blockNum s ∧ s.shared = m'

/-- `expected_maintain` ends, and leaves `m'`. -/
def ReferenceLeaves (m' : Tables) : Prop := ∃ fuel, expectedMaintain d fuel seed reqNum m = .ok m'

/-- The input is one on which the three passes end. -/
structure PassesEnd : Prop where
  host : ∃ m', HostLeaves d reqNum seed m m'
  cores : ∃ m', CoresLeave d reqNum seed m m'
  reference : ∃ m', ReferenceLeaves d reqNum seed m m'

/-- Where passes end, they leave the tables that `expected_maintain` leaves. -/
structure MaintainAgrees : Prop where
  host : ∀ m' m'', HostLeaves d reqNum seed m m' → ReferenceLeaves d reqNum seed m m'' → m' = m''
  cores : ∀ m' m'', CoresLeave d reqNum seed m m' → ReferenceLeaves d reqNum seed m m'' → m' = m''

end

/-- The kernels clear the element of slot `v` that the reference clears: the request's index row
ends within `2 ^ 32` elements, and the id in the slot is not negative. -/
def RightElement (d : Sizes) (m : Tables) (r v : ℕ) : Prop :=
  RowFits d.INDEX_SIZE r ∧ 0 ≤ idOf d m r v

/-- A negative id of the first request, `i - INDEX_SIZE`, that shows nowhere: the reference clears
element `i` of the first row for it and the kernels clear element `i` of the last row that `2 ^ 32`
elements hold, and both elements are cleared anyway. -/
def Unnoticed (d : Sizes) (seed : UInt32) (m : Tables) (r v : ℕ) : Prop :=
  r = 0 ∧ ∃ i : ℕ, idOf d m 0 v = i - d.INDEX_SIZE ∧ (∃ u ∈ takenBack d seed m 0, idOf d m 0 u = i) ∧
    ∃ u ∈ takenBack d seed m (2 ^ 32 / d.INDEX_SIZE - 1), idOf d m (2 ^ 32 / d.INDEX_SIZE - 1) u = i

/-! ## The elements that are named -/

/-- What the rows of the tables fit into. -/
structure Shape (d : Sizes) : Prop where
  fits : d.Fits
  dvd : d.INDEX_SIZE ∣ 2 ^ 32
  slot_le : d.SLOT_COUNT ≤ d.INDEX_SIZE
  free_le : d.FREE_SLOT_COUNT ≤ d.INDEX_SIZE
  query_le : d.QUERY_COUNT ≤ d.INDEX_SIZE

/-- The sizes that are built in are of this shape. -/
theorem hbmSizes_shape : Shape hbmSizes :=
  ⟨hbmSizes_fits, by decide, by decide, by decide, by decide⟩

section

variable {d : Sizes} {n r v fuel : ℕ} {seed : ℤ} {word : UInt32} {m : Tables}

/-- A row of the index is not empty. -/
theorem Shape.index_pos (hd : Shape d) : 0 < d.INDEX_SIZE :=
  Nat.pos_of_dvd_of_pos hd.dvd (Nat.two_pow_pos 32)

/-- The index row is the longest of a request's rows. -/
theorem Shape.slotsFit (hd : Shape d) (h : RowFits d.INDEX_SIZE r) : SlotsFit d r :=
  ⟨(Nat.mul_le_mul_left _ hd.slot_le).trans h, (Nat.mul_le_mul_left _ hd.free_le).trans h,
    (Nat.mul_le_mul_left _ hd.query_le).trans h⟩

/-- `2 ^ 15` requests of the shipped sizes. -/
theorem addressed_hbmSizes (h : r < 2 ^ 15) : Addressed hbmSizes r := by
  have hindex : RowFits hbmSizes.INDEX_SIZE r := by
    show (r + 1) * (128 * 1024) ≤ 2 ^ 32
    omega
  exact ⟨hbmSizes_shape.slotsFit hindex, hindex⟩

/-- A row that does not fit begins past `2 ^ 32`, since whole rows make up `2 ^ 32` elements. -/
theorem Shape.beyond (hd : Shape d) (h : ¬ RowFits d.INDEX_SIZE r) : 2 ^ 32 ≤ arrayBase d.INDEX_SIZE r := by
  obtain ⟨k, hk⟩ := hd.dvd
  unfold RowFits at h
  rw [hk, Nat.mul_comm (r + 1), Nat.mul_le_mul_left_iff hd.index_pos] at h
  unfold arrayBase
  rw [hk, Nat.mul_comm r]
  exact Nat.mul_le_mul_left _ (by omega)

/-- A request's own element is not before its row. -/
theorem le_ownElement (id : ℤ) : arrayBase d.INDEX_SIZE r ≤ ownElement d r id := Nat.le_add_right _ _

/-- For an id that is an element of the row the kernel names that element. -/
theorem kernelElement_of_nonneg {plus : ℕ → ℕ → ℕ} (hadd : Adds plus) (hfit : RowFits d.INDEX_SIZE r)
    {id : ℤ} (hid : InRow d id) (h0 : 0 ≤ id) : kernelElement d plus r id = ownElement d r id := by
  obtain ⟨i, rfl⟩ := Int.eq_ofNat_of_zero_le h0
  have hlt : i < d.INDEX_SIZE := Int.ofNat_lt.mp hid.2
  have hword : u32 (i : ℤ) = i := by
    apply u32_natCast
    unfold RowFits at hfit
    have hle : d.INDEX_SIZE ≤ (r + 1) * d.INDEX_SIZE := Nat.le_mul_of_pos_left _ (Nat.succ_pos r)
    omega
  unfold kernelElement ownElement
  rw [if_pos h0, hword, hfit.plus_eq hadd hlt, Int.toNat_natCast]

/-- A negative id is cast to an element number just below `2 ^ 32`. -/
theorem kernelElement_of_neg (hd : Shape d) (hfit : RowFits d.INDEX_SIZE r) {id : ℤ}
    (hid : InRow d id) (h0 : id < 0) :
    (kernelElement d pointerAdd r id : ℤ) = arrayBase d.INDEX_SIZE r + (2 ^ 32 + id) := by
  have hi32 := hd.fits.index_i32
  obtain ⟨hlow, _⟩ := hid
  unfold kernelElement pointerAdd
  rw [hfit.kernelBase hd.index_pos]
  unfold u32
  omega

/-- A negative index of Python counts from the end of the row. -/
theorem ownElement_of_neg {id : ℤ} (hid : InRow d id) (h0 : id < 0) :
    (ownElement d r id : ℤ) = arrayBase d.INDEX_SIZE r + (d.INDEX_SIZE + id) := by
  obtain ⟨hlow, _⟩ := hid
  unfold ownElement
  rw [if_neg (by omega)]
  omega

/-- An id is what its element in the row says, up to its sign. -/
theorem ownElement_offset {id : ℤ} (hid : InRow d id) {i : ℕ} (h : ownElement d r id = arrayBase d.INDEX_SIZE r + i) :
    id = i ∨ id = i - d.INDEX_SIZE := by
  obtain ⟨hlow, hhigh⟩ := hid
  unfold ownElement at h
  split_ifs at h with h0
  · left
    omega
  · right
    omega

/-- The elements that the kernels name, request by request. -/
theorem mem_named {plus : ℕ → ℕ → ℕ} {a : ℕ} : a ∈ named d plus word m (Finset.range n) ↔
    ∃ r < n, ∃ v ∈ takenBack d word m r, kernelElement d plus r (idOf d m r v) = a := by
  unfold named namedBy
  simp only [Finset.mem_biUnion, Finset.mem_range, List.mem_toFinset, List.mem_map]

theorem mem_ownNamed {a : ℕ} : a ∈ ownNamed d word m (Finset.range n) ↔
    ∃ r < n, ∃ v ∈ takenBack d word m r, ownElement d r (idOf d m r v) = a := by
  unfold ownNamed ownNamedBy
  simp only [Finset.mem_biUnion, Finset.mem_range, List.mem_toFinset, List.mem_map]

/-- The last row that `2 ^ 32` elements hold. -/
theorem Shape.lastRow (hd : Shape d) :
    arrayBase d.INDEX_SIZE (2 ^ 32 / d.INDEX_SIZE - 1) + d.INDEX_SIZE = 2 ^ 32 ∧
      0 < 2 ^ 32 / d.INDEX_SIZE - 1 := by
  have hi32 := hd.fits.index_i32
  have hpos := hd.index_pos
  obtain ⟨k, hk⟩ := hd.dvd
  rw [hk, Nat.mul_div_cancel_left k hpos]
  have htwo : 2 ≤ k := by
    by_contra hlt
    have := Nat.mul_le_mul_left d.INDEX_SIZE (show k ≤ 1 by omega)
    omega
  refine ⟨?_, by omega⟩
  unfold arrayBase
  obtain ⟨j, rfl⟩ := Nat.exists_eq_add_of_le' (Nat.le_trans (by decide : 1 ≤ 2) htwo)
  rw [Nat.add_sub_cancel, Nat.mul_comm d.INDEX_SIZE, Nat.succ_mul]

/-! ### Both namings -/

/-- The rows that are named for are within `2 ^ 32` elements, and their ids are ones that numpy
takes and that the host finds in the buffer. -/
structure Named (d : Sizes) (word : UInt32) (n : ℕ) (m : Tables) : Prop where
  fit : ∀ r < n, ∀ v ∈ takenBack d word m r, RowFits d.INDEX_SIZE r
  inRow : ∀ r < n, ∀ v ∈ takenBack d word m r, InRow d (idOf d m r v)
  inside : NamesInside d pointerAdd word n m

/-- The condition under which the kernels clear what the reference clears. -/
def Rightly (d : Sizes) (word : UInt32) (n : ℕ) (m : Tables) : Prop :=
  ∀ r < n, ∀ v ∈ takenBack d word m r, RightElement d m r v ∨ Unnoticed d word m r v

/-- A negative id of the first request names an element of the last row that `2 ^ 32` elements
hold. -/
theorem unnoticed_element (hd : Shape d) {i : ℕ} (hi : i < d.INDEX_SIZE) {id : ℤ}
    (h : id = i - d.INDEX_SIZE) :
    kernelElement d pointerAdd 0 id = ownElement d (2 ^ 32 / d.INDEX_SIZE - 1) i ∧
      ownElement d 0 id = ownElement d 0 i := by
  have hlast := hd.lastRow.1
  have hi32 := hd.fits.index_i32
  have hrow : ∀ r, ownElement d r (i : ℤ) = arrayBase d.INDEX_SIZE r + i := by
    intro r
    unfold ownElement
    rw [if_pos (Int.natCast_nonneg i), Int.toNat_natCast]
  have hzero : RowFits d.INDEX_SIZE 0 := by
    unfold RowFits
    omega
  have hid : InRow d id := ⟨by omega, by omega⟩
  have hk := kernelElement_of_neg hd hzero hid (by omega)
  have ho := ownElement_of_neg (r := 0) hid (by omega)
  have hbase : arrayBase d.INDEX_SIZE 0 = 0 := Nat.zero_mul _
  rw [hrow, hrow]
  rw [hbase] at hk ho ⊢
  constructor <;> omega

/-- Where the requests are named rightly the two are the same elements. -/
theorem Rightly.named_eq (hd : Shape d) (hright : Rightly d word n m) (h : Named d word n m) :
    named d pointerAdd word m (Finset.range n) = ownNamed d word m (Finset.range n) := by
  have hbelow : ∀ r < n, ∀ v ∈ takenBack d word m r, 0 ≤ idOf d m r v →
      kernelElement d pointerAdd r (idOf d m r v) = ownElement d r (idOf d m r v) := fun r hr v hv h0 =>
    kernelElement_of_nonneg adds_pointerAdd (h.fit r hr v hv) (h.inRow r hr v hv) h0
  -- the slots that make up for a negative id
  have hother : ∀ v ∈ takenBack d word m 0, 0 < n → Unnoticed d word m 0 v →
      (∃ u ∈ takenBack d word m 0, ownElement d 0 (idOf d m 0 v) = kernelElement d pointerAdd 0 (idOf d m 0 u)) ∧
      2 ^ 32 / d.INDEX_SIZE - 1 < n ∧ ∃ u ∈ takenBack d word m (2 ^ 32 / d.INDEX_SIZE - 1),
        kernelElement d pointerAdd 0 (idOf d m 0 v) =
          ownElement d (2 ^ 32 / d.INDEX_SIZE - 1) (idOf d m (2 ^ 32 / d.INDEX_SIZE - 1) u) := by
    rintro v hv hn ⟨_, i, hid, ⟨u, hu, hui⟩, u', hu', hui'⟩
    have hi : i < d.INDEX_SIZE := by
      have hin := (h.inRow 0 hn u hu).2
      rw [hui] at hin
      omega
    obtain ⟨hk, ho⟩ := unnoticed_element hd hi hid
    refine ⟨⟨u, hu, ?_⟩, ?_, u', hu', ?_⟩
    · rw [ho, hbelow 0 hn u hu (by omega), hui]
    · have hin := h.inside 0 hn v hv
      rw [hk] at hin
      have hle := le_ownElement (d := d) (r := 2 ^ 32 / d.INDEX_SIZE - 1) i
      exact Nat.lt_of_mul_lt_mul_right (Nat.lt_of_le_of_lt hle hin)
    · rw [hk, hui']
  ext a
  rw [mem_named, mem_ownNamed]
  constructor
  · rintro ⟨r, hr, v, hv, rfl⟩
    rcases hright r hr v hv with hr' | hun
    · exact ⟨r, hr, v, hv, (hbelow r hr v hv hr'.2).symm⟩
    · obtain rfl := hun.1
      obtain ⟨_, hlast, u, hu, heq⟩ := hother v hv hr hun
      exact ⟨_, hlast, u, hu, heq.symm⟩
  · rintro ⟨r, hr, v, hv, rfl⟩
    rcases hright r hr v hv with hr' | hun
    · exact ⟨r, hr, v, hv, hbelow r hr v hv hr'.2⟩
    · obtain rfl := hun.1
      obtain ⟨⟨u, hu, heq⟩, _⟩ := hother v hv hr hun
      exact ⟨0, hr, u, hu, heq.symm⟩

/-- The cores' 32-bit sums come to the host's element numbers. -/
theorem Rightly.wordAdd_eq (hright : Rightly d word n m) (h : Named d word n m) :
    named d wordAdd word m (Finset.range n) = named d pointerAdd word m (Finset.range n) := by
  have hsame : ∀ r < n, ∀ v ∈ takenBack d word m r,
      kernelElement d wordAdd r (idOf d m r v) = kernelElement d pointerAdd r (idOf d m r v) := by
    intro r hr v hv
    rcases hright r hr v hv with hr' | hun
    · rw [kernelElement_of_nonneg adds_wordAdd hr'.1 (h.inRow r hr v hv) hr'.2,
        kernelElement_of_nonneg adds_pointerAdd hr'.1 (h.inRow r hr v hv) hr'.2]
    · obtain rfl := hun.1
      have hbase : kernelBase d.INDEX_SIZE 0 = 0 := by
        unfold kernelBase
        rw [Nat.zero_mul]
        rfl
      unfold kernelElement
      rw [hbase]
      exact adds_wordAdd.exact 0 _ (by rw [Nat.zero_add]; exact u32_lt _)
  ext a
  rw [mem_named, mem_named]
  constructor
  · rintro ⟨r, hr, v, hv, rfl⟩
    exact ⟨r, hr, v, hv, (hsame r hr v hv).symm⟩
  · rintro ⟨r, hr, v, hv, rfl⟩
    exact ⟨r, hr, v, hv, hsame r hr v hv⟩

/-- A request's own element is not past its row. -/
theorem ownElement_lt {id : ℤ} (hid : InRow d id) : ownElement d r id < (r + 1) * d.INDEX_SIZE := by
  obtain ⟨hlow, hhigh⟩ := hid
  unfold ownElement arrayBase
  rw [Nat.succ_mul]
  split_ifs <;> omega

/-- If the reference names what the host names, only the first request has negative ids. -/
theorem first_of_neg (hd : Shape d) (h : Named d word n m)
    (hsub : named d pointerAdd word m (Finset.range n) ⊆ ownNamed d word m (Finset.range n))
    (hr : r < n) (hv : v ∈ takenBack d word m r) (h0 : idOf d m r v < 0) : r = 0 := by
  have hk := kernelElement_of_neg hd (h.fit r hr v hv) (h.inRow r hr v hv) h0
  obtain ⟨hlow, _⟩ := h.inRow r hr v hv
  -- what the reference names lies below `2 ^ 32`
  obtain ⟨r', hr', u, hu, hown⟩ := mem_ownNamed.mp (hsub (mem_named.mpr ⟨r, hr, v, hv, rfl⟩))
  have hlt := (ownElement_lt (r := r') (h.inRow r' hr' u hu)).trans_le (h.fit r' hr' u hu)
  rw [hown] at hlt
  have hbase : arrayBase d.INDEX_SIZE r < 1 * d.INDEX_SIZE := by omega
  have := Nat.lt_of_mul_lt_mul_right hbase
  omega

/-- If the two namings come to the same, nothing was named wrongly. -/
theorem rightly_of_named_eq (hd : Shape d) (h : Named d word n m)
    (heq : named d pointerAdd word m (Finset.range n) = ownNamed d word m (Finset.range n)) :
    Rightly d word n m := by
  have hi32 := hd.fits.index_i32
  have hbase : arrayBase d.INDEX_SIZE 0 = 0 := Nat.zero_mul _
  intro r hr v hv
  -- an id that is not negative is named by the host as by the reference
  by_cases h0 : 0 ≤ idOf d m r v
  · exact Or.inl ⟨h.fit r hr v hv, h0⟩
  -- a negative one is of the first request, and its element lies in the last row
  · obtain rfl := first_of_neg hd h heq.subset hr hv (by omega)
    have hid := h.inRow 0 hr v hv
    have hlow := hid.1
    obtain ⟨i, hi⟩ := Int.eq_ofNat_of_zero_le (show 0 ≤ idOf d m 0 v + d.INDEX_SIZE by omega)
    have hilt : i < d.INDEX_SIZE := by omega
    obtain ⟨hk, ho⟩ := unnoticed_element hd hilt (show idOf d m 0 v = i - d.INDEX_SIZE by omega)
    -- for `i` not negative the own element is at `i` in the row
    have hrow : ∀ r, ownElement d r (i : ℤ) = arrayBase d.INDEX_SIZE r + i := fun r =>
      congrArg _ ((if_pos (Int.natCast_nonneg i)).trans (Int.toNat_natCast i))
    refine Or.inr ⟨rfl, i, by omega, ?_, ?_⟩
    · -- the host names element `i` of the first row, for an id of the first request
      obtain ⟨r', hr', u, hu, hker⟩ := mem_named.mp
        (heq.symm ▸ mem_ownNamed.mpr ⟨0, hr, v, hv, rfl⟩)
      rw [ho, hrow, hbase, Nat.zero_add] at hker
      by_cases h0' : 0 ≤ idOf d m r' u
      · rw [kernelElement_of_nonneg adds_pointerAdd (h.fit r' hr' u hu) (h.inRow r' hr' u hu) h0'] at hker
        have hle := le_ownElement (d := d) (r := r') (idOf d m r' u)
        have hlt : arrayBase d.INDEX_SIZE r' < 1 * d.INDEX_SIZE := by omega
        obtain rfl : r' = 0 := Nat.lt_one_iff.mp (Nat.lt_of_mul_lt_mul_right hlt)
        refine ⟨u, hu, ?_⟩
        have hoff := ownElement_offset (r := 0) (h.inRow 0 hr' u hu) (i := i) (by omega)
        omega
      -- a negative id of `r'` would name an element past the first row
      · have hk' := kernelElement_of_neg hd (h.fit r' hr' u hu) (h.inRow r' hr' u hu) (by omega)
        have hlow' := (h.inRow r' hr' u hu).1
        omega
    · -- the reference names the host's element, for an id of the last row's request
      obtain ⟨r', hr', u, hu, hown⟩ := mem_ownNamed.mp (heq ▸ mem_named.mpr ⟨0, hr, v, hv, rfl⟩)
      rw [hk, hrow] at hown
      obtain rfl : r' = 2 ^ 32 / d.INDEX_SIZE - 1 := by
        rw [← (ownElement_row (r := r') (h.inRow r' hr' u hu)).1, hown]
        exact (div_mod_of_row hilt).1
      -- the id there is `i` itself, since a negative one is of the first request only
      refine ⟨u, hu, (ownElement_offset (h.inRow _ hr' u hu) hown).resolve_right fun hneg => ?_⟩
      have hfirst := first_of_neg hd h heq.subset hr' hu (by omega)
      have hlast := hd.lastRow.2
      omega

/-! ## The passes on one input -/

/-- The passes read the slots of requests whose rows fit. -/
theorem takeable (hd : Shape d) (hq : QueriesAreSlots d n m) (hexp : Expectable d word n m)
    (hfit : ∀ r < n, ∀ v ∈ takenBack d word m r, RowFits d.INDEX_SIZE r) : Takeable d n m := by
  have hsome : ∀ r < n, 0 < m.freeHead r → ∃ v, v ∈ takenBack d word m r := by
    intro r hr hpos
    apply List.exists_mem_of_length_pos
    rw [hexp.enough r hr]
    omega
  refine ⟨hq, fun r hr hpos => ?_, fun r hr => ?_⟩
  · obtain ⟨v, hv⟩ := hsome r hr hpos
    exact hd.slotsFit (hfit r hr v hv)
  · by_cases hpos : 0 < m.freeHead r
    · obtain ⟨v, hv⟩ := hsome r hr hpos
      exact (hexp.takable r hr v hv).1
    · omega

/-- What the host's loop leaves, when the reference goes through. -/
theorem hostLeaves_taken (hd : Shape d) (h : Takeable d n m) (hexp : Expectable d (seedWord seed) n m)
    (hin : NamesInside d pointerAdd (seedWord seed) n m) :
    HostLeaves d n seed m (takenAll d pointerAdd (seedWord seed) m (Finset.range n)) := by
  have hserves := serves_taken adds_pointerAdd hd.fits h hexp.enough hin le_rfl
  have hwords : Bitmap d (clearProtectedSlots d) := List.length_replicate
  obtain ⟨words', m', hrun, _, rfl⟩ := loop_spec hserves _ hwords takenAll_empty.symm
  refine ⟨d.SLOT_COUNT, _, hwords, ?_⟩
  unfold maintainEviction
  rw [hrun]
  rfl

/-- What the host leaves, if it ends. -/
theorem HostLeaves.eq (hd : Shape d) (h : Takeable d n m) {m' : Tables} (hhost : HostLeaves d n seed m m') :
    NamesInside d pointerAdd (seedWord seed) n m ∧
      m' = takenAll d pointerAdd (seedWord seed) m (Finset.range n) := by
  obtain ⟨fuel, words, hwords, hrun⟩ := hhost
  obtain ⟨s, hloop, hs⟩ := Folds.ok_of_bind (f := fun s : ProtectedSlots × Tables => pure s.2) hrun
  cases hs
  exact loop_taken adds_pointerAdd hd.fits h hwords hloop

theorem coresLeave_taken (hd : Shape d) (h : Takeable d n m) (hexp : Expectable d (seedWord seed) n m)
    (hin : NamesInside d wordAdd (seedWord seed) n m) :
    CoresLeave d n seed m (takenAll d wordAdd (seedWord seed) m (Finset.range n)) := by
  have hserves := serves_taken adds_wordAdd hd.fits h hexp.enough hin le_rfl
  have hbuffers : ∀ c < 1, Bitmap d ((fun _ => clearProtectedSlots d) c) := fun _ _ => List.length_replicate
  -- one core, as often as there are requests
  have hsched : ∀ c ∈ List.replicate n 0, c < 1 := fun c hc => by
    rw [List.eq_of_mem_replicate hc]
    exact Nat.one_pos
  obtain ⟨s, hrun, hshared, hfinished⟩ := run_spec hserves Nat.one_pos hbuffers takenAll_empty.symm hsched
  have hfin := hfinished fun c hc => by
    rw [Nat.lt_one_iff.mp hc, List.count_replicate_self]
  exact ⟨_, 1, _, _, s, Nat.one_pos, hbuffers, hsched, hrun, hfin, hshared hfin⟩

/-- What the cores leave, if they finish. -/
theorem CoresLeave.eq (hd : Shape d) (h : Takeable d n m) (hexp : Expectable d (seedWord seed) n m)
    (hin : NamesInside d wordAdd (seedWord seed) n m) {m' : Tables} (hcores : CoresLeave d n seed m m') :
    m' = takenAll d wordAdd (seedWord seed) m (Finset.range n) := by
  obtain ⟨fuel, blockNum, buffers, schedule, s, hblock, hbuffers, hsched, hrun, hfin, rfl⟩ := hcores
  have hserves := serves_taken adds_wordAdd hd.fits h hexp.enough hin (Nat.le_max_right fuel d.SLOT_COUNT)
  obtain ⟨s', hrun', hshared, _⟩ := run_spec hserves hblock hbuffers takenAll_empty.symm hsched
  -- with more fuel the cores do what they did
  have hmore : ∀ words t t' r words' t₁, t' = t →
      maintainRequest d wordAdd fuel (seedWord seed) n (words, t) r = .ok (words', t₁) →
      ∃ t₁', maintainRequest d wordAdd (max fuel d.SLOT_COUNT) (seedWord seed) n (words, t') r =
        .ok (words', t₁') ∧ t₁' = t₁ := by
    rintro words t _ r words' t₁ rfl hstep
    exact ⟨t₁, maintainRequest_mono (Nat.le_max_left fuel d.SLOT_COUNT) hstep, rfl⟩
  have hstart : (start m buffers).cores = (start m buffers).cores ∧
      (start m buffers).shared = (start m buffers).shared := ⟨rfl, rfl⟩
  obtain ⟨s'', hrun'', hcores, heq⟩ := run_related hmore hstart hrun
  have hrun₁ := hrun''.symm.trans hrun'
  cases hrun₁
  rw [← heq]
  apply hshared
  intro c hc
  rw [hcores]
  exact hfin c hc

/-- What the reference leaves, and what it has found on the way. -/
theorem ReferenceLeaves.eq (hd : Shape d) {m' : Tables} (href : ReferenceLeaves d n seed m m') :
    Expectable d (seedWord seed) n m ∧ m' = expectedTaken d (seedWord seed) m (Finset.range n) := by
  obtain ⟨fuel, hrun⟩ := href
  exact expectedMaintain_ok hd.fits hd.index_pos hrun

/-- The cores name nothing further out than the host does. -/
theorem namesInside_wordAdd (h : NamesInside d pointerAdd word n m) : NamesInside d wordAdd word n m := by
  intro r hr v hv
  exact (adds_wordAdd.le _ _).trans_lt (h r hr v hv)

/-- An input on which the passes end: enough slots, with ids that numpy takes and that are in the
buffer for the kernels. -/
theorem passesEnd_of (hd : Shape d) (h : Takeable d n m) (hexp : Expectable d (seedWord seed) n m)
    (hin : NamesInside d pointerAdd (seedWord seed) n m) : PassesEnd d n seed m where
  host := ⟨_, hostLeaves_taken hd h hexp hin⟩
  cores := ⟨_, coresLeave_taken hd h hexp (namesInside_wordAdd hin)⟩
  reference := ⟨_, _, expectedMaintain_ends hd.fits hd.index_pos hexp le_rfl⟩

/-! ## Any index -/

/-- A core's pass can be repeated on any index, and what 32 bits do not reach is left alone. -/
theorem CoresLeave.offIndex (f : ℕ → ℤ) {m' : Tables} (h : CoresLeave d n seed m m') :
    ∃ m'', CoresLeave d n seed { m with index := f } m'' ∧ ∀ a, 2 ^ 32 ≤ a → m''.index a = f a := by
  obtain ⟨fuel, blockNum, buffers, schedule, s, hblock, hbuffers, hsched, hrun, hfin, rfl⟩ := h
  have hfollow : ∀ words t t' r words' t₁, OffIndex f t t' →
      maintainRequest d wordAdd fuel (seedWord seed) n (words, t) r = .ok (words', t₁) →
      ∃ t₁', maintainRequest d wordAdd fuel (seedWord seed) n (words, t') r = .ok (words', t₁') ∧
        OffIndex f t₁ t₁' := fun _ _ _ _ _ _ ht hstep => maintainRequest_offIndex ht hstep
  have hstart : (start { m with index := f } buffers).cores = (start m buffers).cores ∧
      OffIndex f m { m with index := f } := ⟨rfl, f, rfl, fun _ _ => rfl⟩
  obtain ⟨s', hrun', hcores, g, heq, hfar⟩ := run_related hfollow hstart hrun
  refine ⟨s'.shared, ⟨fuel, blockNum, buffers, schedule, s', hblock, hbuffers, hsched, hrun', ?_, rfl⟩, ?_⟩
  · intro c hc
    rw [hcores]
    exact hfin c hc
  · rw [heq]
    exact hfar

/-- What the passes take back is not a matter of the index. -/
theorem expectable_index (f : ℕ → ℤ) : Expectable d word n { m with index := f } ↔ Expectable d word n m :=
  ⟨fun h => ⟨h.enough, h.takable⟩, fun h => ⟨h.enough, h.takable⟩⟩

/-- A request whose row lies beyond `2 ^ 32` is out of the cores' reach. -/
theorem rowFits_of_agrees (hd : Shape d) (hends : PassesEnd d n seed m)
    (hagrees : ∀ index, MaintainAgrees d n seed { m with index := index }) :
    ∀ r < n, ∀ v ∈ takenBack d (seedWord seed) m r, RowFits d.INDEX_SIZE r := by
  intro r hr v hv
  by_contra hfar
  obtain ⟨m₁, hcores⟩ := hends.cores
  obtain ⟨m₂, href⟩ := hends.reference
  obtain ⟨m₁', hcores', hfar'⟩ := hcores.offIndex fun _ => 0
  have hexp := (expectable_index (fun _ => 0)).mpr (href.eq hd).1
  have hends := expectedMaintain_ends hd.fits hd.index_pos hexp (le_refl d.SLOT_COUNT)
  have hsame := (hagrees fun _ => 0).cores _ _ hcores' ⟨_, hends⟩
  -- the reference has cleared the element of the slot
  have hcleared := hfar' (ownElement d r (idOf d m r v)) ((hd.beyond hfar).trans (le_ownElement _))
  have hmem : ownElement d r (idOf d m r v) ∈
      ownNamed d (seedWord seed) { m with index := fun _ => 0 } (Finset.range n) :=
    mem_ownNamed.mpr ⟨r, hr, v, hv, rfl⟩
  rw [hsame] at hcleared
  have hnot : (expectedTaken d (seedWord seed) { m with index := fun _ => 0 } (Finset.range n)).index
      (ownElement d r (idOf d m r v)) = NOT_FOUND := if_pos hmem
  rw [hnot] at hcleared
  exact absurd hcleared (by decide)

/-- The namings come to the same if the passes agree on an index without a `-1`. -/
theorem named_eq_of_agrees (hd : Shape d) (h : Takeable d n m) (hexp : Expectable d (seedWord seed) n m)
    (hin : NamesInside d pointerAdd (seedWord seed) n m)
    (hagrees : MaintainAgrees d n seed { m with index := fun _ => 0 }) :
    named d pointerAdd (seedWord seed) m (Finset.range n) = ownNamed d (seedWord seed) m (Finset.range n) := by
  have hexp' := (expectable_index (fun _ => 0)).mpr hexp
  have hsame := hagrees.host _ _
    (hostLeaves_taken hd (m := { m with index := fun _ => 0 }) ⟨h.queries, h.fit, h.head⟩ hexp' hin)
    ⟨_, expectedMaintain_ends hd.fits hd.index_pos hexp' (le_refl d.SLOT_COUNT)⟩
  have hindex := congrArg Tables.index hsame
  ext a
  have ha : (if a ∈ named d pointerAdd (seedWord seed) m (Finset.range n) then NOT_FOUND else 0) =
      if a ∈ ownNamed d (seedWord seed) m (Finset.range n) then NOT_FOUND else 0 := congrFun hindex a
  have hne : NOT_FOUND ≠ 0 := by decide
  split_ifs at ha with h1 h2 h2
  · exact iff_of_true h1 h2
  · exact absurd ha hne
  · exact absurd ha.symm hne
  · exact iff_of_false h1 h2

/-- The passes agree where nothing is named wrongly, on any index. -/
theorem agrees_of_rightly (hd : Shape d) (h : Takeable d n m) (hnamed : Named d (seedWord seed) n m)
    (hright : Rightly d (seedWord seed) n m) (index : ℕ → ℤ) :
    MaintainAgrees d n seed { m with index := index } := by
  have htake : Takeable d n { m with index := index } := ⟨h.queries, h.fit, h.head⟩
  have hnamed' : Named d (seedWord seed) n { m with index := index } :=
    ⟨hnamed.fit, hnamed.inRow, hnamed.inside⟩
  have hright' : Rightly d (seedWord seed) n { m with index := index } := hright
  have hhost := hright'.named_eq hd hnamed'
  have hcores := hright'.wordAdd_eq hnamed'
  constructor
  · intro m' m'' hleaves href
    obtain ⟨_, rfl⟩ := href.eq hd
    rw [(hleaves.eq hd htake).2]
    unfold expectedTaken
    rw [← hhost]
    rfl
  · intro m' m'' hleaves href
    obtain ⟨hexp, rfl⟩ := href.eq hd
    rw [hleaves.eq hd htake hexp (namesInside_wordAdd hnamed.inside)]
    unfold expectedTaken
    rw [← hhost, ← hcores]
    rfl

/-- **Agreement**, for tables of any shape. -/
theorem agrees_iff_rightly (hd : Shape d) (hq : QueriesAreSlots d n m) (hends : PassesEnd d n seed m) :
    (∀ index, MaintainAgrees d n seed { m with index := index }) ↔ Rightly d (seedWord seed) n m := by
  obtain ⟨_, href⟩ := hends.reference
  obtain ⟨m₁, hhost⟩ := hends.host
  obtain ⟨hexp, _⟩ := href.eq hd
  have hnamed : (∀ r < n, ∀ v ∈ takenBack d (seedWord seed) m r, RowFits d.INDEX_SIZE r) →
      Takeable d n m ∧ Named d (seedWord seed) n m := fun hfit =>
    have htake := takeable hd hq hexp hfit
    ⟨htake, hfit, fun r hr v hv => (hexp.takable r hr v hv).2, (hhost.eq hd htake).1⟩
  constructor
  · intro hagrees
    obtain ⟨htake, hn⟩ := hnamed (rowFits_of_agrees hd hends hagrees)
    exact rightly_of_named_eq hd hn (named_eq_of_agrees hd htake hexp hn.inside (hagrees fun _ => 0))
  · intro hright
    have hzero : RowFits d.INDEX_SIZE 0 := by
      have hi32 := hd.fits.index_i32
      unfold RowFits
      omega
    obtain ⟨htake, hn⟩ := hnamed fun r hr v hv => (hright r hr v hv).elim And.left fun hun => by
      rw [hun.1]
      exact hzero
    exact agrees_of_rightly hd htake hn hright

end

/-- **The maintenance of all requests.** On an input on which they end, the host pass, the cores and
`expected_maintain` agree, whatever the index holds, exactly when every slot that is taken back is
that of a request below `2 ^ 15` and holds no negative id, or one that shows nowhere. -/
theorem maintain_agrees_iff (reqNum : ℕ) (seed : ℤ) (m : Tables) (hq : QueriesAreSlots hbmSizes reqNum m)
    (hends : PassesEnd hbmSizes reqNum seed m) :
    (∀ index, MaintainAgrees hbmSizes reqNum seed { m with index := index }) ↔
      ∀ r < reqNum, ∀ v ∈ takenBack hbmSizes (seedWord seed) m r,
        RightElement hbmSizes m r v ∨ Unnoticed hbmSizes (seedWord seed) m r v :=
  agrees_iff_rightly hbmSizes_shape hq hends

/-! ## Late requests -/

/-- Token 0 lies in slot 1 of every request and the last queries protect slot 0. One slot is to be
taken back, from request `late`. -/
def lateTables (d : Sizes) (late : ℕ) : Tables where
  index := fun a => if a % d.INDEX_SIZE = 0 then 1 else NOT_FOUND
  slotToIndex := fun a => if a % d.SLOT_COUNT = 1 then 0 else NOT_FOUND
  freeSlots := fun _ => 0
  freeHead := fun r => if r = late then 1 else 0
  query := fun _ => 0
  slotOut := fun _ => 0

section

variable {d : Sizes} {n r late : ℕ} {word : UInt32}

/-- The ids of the example: one slot of each row holds token 0. -/
theorem idOf_late {v : ℕ} (hv : v < d.SLOT_COUNT) : idOf d (lateTables d late) r v =
    if v = 1 then 0 else NOT_FOUND := by
  unfold idOf Tables.row window
  dsimp only
  rw [read_map_range hv]
  unfold lateTables arrayBase
  dsimp only
  rw [(div_mod_of_row hv).2]

/-- So that slot is the only one to be taken. -/
theorem takes_late {v : ℕ} (hv : v < d.SLOT_COUNT) : Takes d (lateTables d late) r v ↔ v = 1 := by
  have hne : (0 : ℤ) ≠ NOT_FOUND := by decide
  unfold Takes
  rw [idOf_late hv]
  constructor
  · intro h
    by_contra hv1
    rw [if_neg hv1] at h
    exact h.1 rfl
  · rintro rfl
    rw [if_pos rfl]
    refine ⟨hne, fun hmem => ?_⟩
    obtain ⟨i, _, hi⟩ := List.mem_map.mp hmem
    have hzero : (0 : ℤ) = (1 : ℕ) := hi
    omega

/-- Slot 1 is all that is taken back. -/
theorem takenBack_late (hd : d.Fits) (htwo : 1 < d.SLOT_COUNT) :
    takenBack d word (lateTables d late) r = if r = late then [1] else [] := by
  split_ifs with hr
  · have hhead : ((lateTables d late).freeHead r).toNat = 1 := by
      rw [show (lateTables d late).freeHead r = 1 from if_pos hr]
      rfl
    rw [takenBack_eq, hhead]
    have hone : found d.SLOT_COUNT (walkStart d word (UInt32.ofNat r)) (Takes d (lateTables d late) r)
        d.SLOT_COUNT = [1] := by
      have hmem : 1 ∈ found d.SLOT_COUNT (walkStart d word (UInt32.ofNat r))
          (Takes d (lateTables d late) r) d.SLOT_COUNT :=
        found_full hd.slot_pos htwo ((takes_late htwo).mpr rfl) le_rfl
      apply List.perm_singleton.mp
      rw [List.perm_ext_iff_of_nodup (found_nodup _) (List.nodup_singleton 1)]
      intro v
      rw [List.mem_singleton]
      constructor
      · intro hv
        obtain ⟨hlt, hp⟩ := mem_found hd.slot_pos hv
        exact (takes_late hlt).mp hp
      · rintro rfl
        exact hmem
    rw [hone]
    rfl
  · exact takenBack_of_nonpos d word (if_neg hr).le

/-- The last query of the example names slot 0 only. -/
theorem queriesAreSlots_late (hslot : 0 < d.SLOT_COUNT) : QueriesAreSlots d n (lateTables d late) :=
  fun _ _ => ⟨le_rfl, Int.natCast_pos.mpr hslot⟩

/-- Of the late tables all passes take the slot back, as long as the slot rows fit. -/
theorem late_ends (hd : Shape d) (htwo : 1 < d.SLOT_COUNT) (hfree : 0 < d.FREE_SLOT_COUNT)
    (hfit : SlotsFit d late) (hlate : late < n) :
    Takeable d n (lateTables d late) ∧ Expectable d word n (lateTables d late) ∧
      NamesInside d pointerAdd word n (lateTables d late) := by
  have hhead : ∀ r, (lateTables d late).freeHead r = if r = late then 1 else 0 := fun _ => rfl
  have hid : idOf d (lateTables d late) late 1 = 0 := by rw [idOf_late htwo, if_pos rfl]
  -- the one slot that is taken back is slot 1 of the late request
  have hone : ∀ r, ∀ v ∈ takenBack d word (lateTables d late) r, r = late ∧ v = 1 := by
    intro r v hv
    rw [takenBack_late hd.fits htwo] at hv
    split_ifs at hv with hr
    · exact ⟨hr, List.mem_singleton.mp hv⟩
    · exact absurd hv List.not_mem_nil
  refine ⟨⟨queriesAreSlots_late hd.fits.slot_pos, fun r _ hpos => ?_, fun r _ => ?_⟩,
    ⟨fun r _ => ?_, fun r _ v hv => ?_⟩, fun r hr v hv => ?_⟩
  -- only that request has something to take back
  · rw [hhead] at hpos
    split_ifs at hpos with hr
    · rw [hr]
      exact hfit
    · exact absurd hpos (lt_irrefl 0)
  · rw [hhead]
    split_ifs <;> omega
  · rw [takenBack_late hd.fits htwo, hhead]
    split_ifs <;> rfl
  -- its id is the first entry of the row
  · obtain ⟨rfl, rfl⟩ := hone r v hv
    have hpos := hd.index_pos
    refine ⟨?_, by rw [hid]; exact ⟨by omega, by omega⟩⟩
    rw [hhead, if_pos rfl]
    omega
  -- which lies in the buffer, also where the base has wrapped
  · obtain ⟨rfl, rfl⟩ := hone r v hv
    have hle : kernelBase d.INDEX_SIZE r ≤ arrayBase d.INDEX_SIZE r := by
      unfold kernelBase arrayBase u32
      omega
    have hlt := element_lt hr hd.index_pos
    rw [hid]
    unfold kernelElement pointerAdd u32
    omega

/-- Where the late row begins at `2 ^ 32`, only the reference gets to it. -/
theorem late_disagrees (hd : Shape d) (htwo : 1 < d.SLOT_COUNT) (hfree : 0 < d.FREE_SLOT_COUNT)
    (hfit : SlotsFit d late) (hlate : late < n) (hindex : late * d.INDEX_SIZE = 2 ^ 32) (seed : ℤ) :
    ¬ MaintainAgrees d n seed (lateTables d late) := by
  intro hagrees
  obtain ⟨htake, hexp, hin⟩ := late_ends hd htwo hfree hfit hlate
  have hsame := hagrees.host _ _ (hostLeaves_taken hd htake hexp hin)
    ⟨_, expectedMaintain_ends hd.fits hd.index_pos hexp (le_refl d.SLOT_COUNT)⟩
  have hid : idOf d (lateTables d late) late 1 = 0 := by rw [idOf_late htwo, if_pos rfl]
  have hmem : 1 ∈ takenBack d (seedWord seed) (lateTables d late) late := by
    rw [takenBack_late hd.fits htwo, if_pos rfl]
    exact List.mem_singleton.mpr rfl
  have helement : ownElement d late 0 = late * d.INDEX_SIZE := Nat.add_zero _
  have hown : ownElement d late 0 ∈ ownNamed d (seedWord seed) (lateTables d late) (Finset.range n) :=
    mem_ownNamed.mpr ⟨late, hlate, 1, hmem, by rw [hid]⟩
  -- the host's base has wrapped
  have hnot : ownElement d late 0 ∉
      named d pointerAdd (seedWord seed) (lateTables d late) (Finset.range n) := by
    intro h
    obtain ⟨r, _, v, hv, hker⟩ := mem_named.mp h
    rw [takenBack_late hd.fits htwo] at hv
    split_ifs at hv with hr
    · obtain rfl := List.mem_singleton.mp hv
      rw [hr, hid, helement, hindex] at hker
      unfold kernelElement pointerAdd kernelBase at hker
      rw [hindex] at hker
      exact absurd hker (by decide)
    · exact absurd hv List.not_mem_nil
  have hthere : (lateTables d late).index (ownElement d late 0) = 1 := by
    rw [helement]
    exact if_pos (Nat.mul_mod_left _ _)
  have hat : (if ownElement d late 0 ∈ named d pointerAdd (seedWord seed) (lateTables d late) (Finset.range n)
      then NOT_FOUND else (lateTables d late).index (ownElement d late 0)) =
      if ownElement d late 0 ∈ ownNamed d (seedWord seed) (lateTables d late) (Finset.range n)
      then NOT_FOUND else (lateTables d late).index (ownElement d late 0) :=
    congrFun (congrArg Tables.index hsame) _
  rw [if_neg hnot, if_pos hown, hthere] at hat
  exact absurd hat (by decide)

end

/-- One request too many, with one slot to take back from the last: the host clears token 0 of the
first request, and `expected_maintain` that of the last. -/
theorem maintain_wraps : QueriesAreSlots hbmSizes 32769 (lateTables hbmSizes 32768) ∧
    PassesEnd hbmSizes 32769 0 (lateTables hbmSizes 32768) ∧
    ¬ MaintainAgrees hbmSizes 32769 0 (lateTables hbmSizes 32768) := by
  have hfit : SlotsFit hbmSizes 32768 := ⟨by decide, by decide, by decide⟩
  obtain ⟨htake, hexp, hin⟩ := late_ends hbmSizes_shape (by decide) (by decide) hfit
    (by decide : 32768 < 32769)
  exact ⟨htake.queries, passesEnd_of hbmSizes_shape htake hexp hin,
    late_disagrees hbmSizes_shape (by decide) (by decide) hfit (by decide) (by decide) 0⟩

/-- The second of two requests has a slot to take back. -/
theorem maintain_agrees_two : QueriesAreSlots hbmSizes 2 (lateTables hbmSizes 1) ∧
    PassesEnd hbmSizes 2 (-1) (lateTables hbmSizes 1) ∧
    ∀ index, MaintainAgrees hbmSizes 2 (-1) { lateTables hbmSizes 1 with index := index } := by
  have hd := hbmSizes_shape
  have htwo : 1 < hbmSizes.SLOT_COUNT := by decide
  obtain ⟨htake, hexp, hin⟩ := late_ends hd htwo (by decide)
    ⟨by decide, by decide, by decide⟩ (by decide : 1 < 2)
  have hends : PassesEnd hbmSizes 2 (-1) (lateTables hbmSizes 1) := passesEnd_of hd htake hexp hin
  refine ⟨htake.queries, hends, (maintain_agrees_iff 2 (-1) _ htake.queries hends).mpr fun r _ v hv => Or.inl ?_⟩
  rw [takenBack_late hd.fits htwo] at hv
  split_ifs at hv with hr
  · obtain rfl := List.mem_singleton.mp hv
    rw [hr]
    refine ⟨by decide, ?_⟩
    rw [idOf_late htwo, if_pos rfl]
  · exact absurd hv List.not_mem_nil

end AsuAscend.HbmIndex
