/-
`expected_maintain` of `ops/scripts/asu_hbm_index_common.py`, for one request row.

The reference keeps the protected slots in a set and walks with an offset that never
wraps. On `int32_t` tables its walk takes the turns of the kernels' walk
(`expectedWalk_eq`): whatever they compute, apart from an access outside a table,
it computes too (`expectedMaintainRow_eq`).

## Python integers and machine words

The reference computes its hash on unbounded integers with masks, the kernels on `uint32_t`; the
seed may be any integer, of which the last 32 bits count (`seedWord`). Its walk keeps an offset
and takes it modulo the number of slots, where the kernels keep a slot that wraps. A store into a
numpy array checks its index, and a negative one counts from the end (`setItem`): this is where the
two can differ, and the theorems here are about the turns before.
-/
import AsuAscend.HbmIndex.Maintain
import Mathlib.Data.Finset.Dedup

set_option autoImplicit false

open MachineWords SentinelTable CircularOrder

namespace AsuAscend.HbmIndex

/-- `xs[i] = v` on an array, where a negative `i` counts from the end. -/
def setItem (xs : List ℤ) (i v : ℤ) : Except Halt (List ℤ) :=
  if 0 ≤ i then setValue xs i.toNat v
  else if -xs.length ≤ i then setValue xs (xs.length + i).toNat v
  else .error .outside

/-- `hash32` on the integers of Python. -/
def expectedHash32 (value : ℕ) : ℕ :=
  let value := value &&& 0xFFFFFFFF
  let value := value ^^^ (value >>> 16)
  let value := (value * 0x7FEB352D) &&& 0xFFFFFFFF
  let value := value ^^^ (value >>> 15)
  let value := (value * 0x846CA68B) &&& 0xFFFFFFFF
  let value := value ^^^ (value >>> 16)
  value &&& 0xFFFFFFFF

/-- The variables of the loop; `row.freeHead` is `head`. -/
structure ExpectedWalk where
  offset : ℕ
  row : Row

section

variable (d : Sizes)

def expectedTurn (protected_slots : Finset ℤ) (start : ℕ) (c : ExpectedWalk) :
    Except Halt ExpectedWalk := do
  let slot := (start + c.offset) % d.SLOT_COUNT
  let index_id ← getValue c.row.slotToIndex slot
  if index_id ≠ NOT_FOUND ∧ (slot : ℤ) ∉ protected_slots then
    let slot_to_index ← setValue c.row.slotToIndex slot NOT_FOUND
    let index ← setItem c.row.index index_id NOT_FOUND
    let head := c.row.freeHead - 1
    let free_slots ← setItem c.row.freeSlots head slot
    return ⟨c.offset + 1, ⟨index, slot_to_index, free_slots, head⟩⟩
  else return ⟨c.offset + 1, c.row⟩

/-- The loop `while head > 0`, cut off after `fuel` turns. -/
def expectedWalk (protected_slots : Finset ℤ) (start : ℕ) : ℕ → ExpectedWalk → Except Halt Row
  | 0, c => if c.row.freeHead > 0 then .error .outOfFuel else .ok c.row
  | fuel + 1, c =>
      if c.row.freeHead > 0 then
        expectedTurn d protected_slots start c >>= expectedWalk protected_slots start fuel
      else .ok c.row

/-- The body of the loop over the requests in `expected_maintain`. A negative seed has ones in
front of its bits; `hash32` masks the exclusive or, so that 32 bits of the seed count. -/
def expectedMaintainRow (fuel : ℕ) (seed : ℤ) (req_id : ℕ) (last_query_slots : List ℤ) (row : Row) :
    Except Halt Row :=
  let protected_slots := last_query_slots.toFinset
  let start := expectedHash32 (u32 seed ^^^ req_id) % d.SLOT_COUNT
  expectedWalk d protected_slots start fuel ⟨0, row⟩

end

/-! ## The hash -/

/-- numpy's mask is the remainder by `2 ^ 32`. -/
theorem and_u32 (n : ℕ) : n &&& 0xFFFFFFFF = n % 2 ^ 32 := Nat.and_two_pow_sub_one_eq_mod n 32

/-- The hash of the reference, with its masks, is that of the kernels on 32-bit words. -/
theorem expectedHash32_eq (x : UInt32) : expectedHash32 x.toNat = (hash32 x).toNat := by
  have hmask : ∀ y : UInt32, y.toNat &&& 0xFFFFFFFF = y.toNat := fun y => by
    rw [and_u32, Nat.mod_eq_of_lt y.toNat_lt]
  have hmul : ∀ y c : UInt32, (y.toNat * c.toNat) &&& 0xFFFFFFFF = (y * c).toNat := fun y c => by
    rw [and_u32, UInt32.toNat_mul]
  have hshift16 : ∀ y : UInt32, y.toNat >>> 16 = (y >>> 16).toNat := fun y => by
    rw [UInt32.toNat_shiftRight]
    rfl
  have hshift15 : ∀ y : UInt32, y.toNat >>> 15 = (y >>> 15).toNat := fun y => by
    rw [UInt32.toNat_shiftRight]
    rfl
  unfold expectedHash32 hash32
  dsimp only
  rw [hmask x, hshift16, ← UInt32.toNat_xor, show (0x7FEB352D : ℕ) = (0x7feb352d : UInt32).toNat from rfl,
    hmul, hshift15, ← UInt32.toNat_xor, show (0x846CA68B : ℕ) = (0x846ca68b : UInt32).toNat from rfl,
    hmul, hshift16, ← UInt32.toNat_xor, hmask]

/-- The reference may be given any Python integer; only its last 32 bits count. -/
theorem expectedHash32_mod (x : ℕ) : expectedHash32 (x % 2 ^ 32) = expectedHash32 x := by
  have hmask : x % 2 ^ 32 &&& 0xFFFFFFFF = x &&& 0xFFFFFFFF := by
    rw [and_u32, and_u32, Nat.mod_mod]
  unfold expectedHash32
  dsimp only
  rw [hmask]

/-- `ctypes.c_uint32(seed)`, which the kernels are handed. -/
def seedWord (seed : ℤ) : UInt32 := UInt32.ofNat (u32 seed)

theorem toNat_seedWord (seed : ℤ) : (seedWord seed).toNat = u32 seed :=
  UInt32.toNat_ofNat_of_lt' (u32_lt seed)

theorem seedWord_toNat (seed : UInt32) : seedWord (seed.toNat : ℤ) = seed := by
  unfold seedWord
  rw [u32_natCast seed.toNat_lt, UInt32.ofNat_toNat]

/-- The reference starts each request where the kernels do. -/
theorem expectedStart_eq (d : Sizes) (seed : ℤ) (req_id : ℕ) :
    expectedHash32 (u32 seed ^^^ req_id) % d.SLOT_COUNT =
      walkStart d (seedWord seed) (UInt32.ofNat req_id) := by
  unfold walkStart
  rw [← expectedHash32_eq, UInt32.toNat_xor, toNat_seedWord, UInt32.toNat_ofNat',
    ← expectedHash32_mod, Nat.xor_mod_two_pow, Nat.mod_eq_of_lt (u32_lt seed)]

/-! ## The walk

A row of `int32_t` tables is one whose entries and head are in that range (`Int32Row`); the walk
keeps it so. The outcome "outside" of the two walks is left open by these lemmas. -/

/-- The values of an `int32_t` table. -/
def Int32s (xs : List ℤ) : Prop := ∀ z ∈ xs, -2 ^ 31 ≤ z ∧ z < 2 ^ 31

section

variable {d : Sizes} {protectedSlots : ProtectedSlots} {last : List ℤ} {start : ℕ}

/-- A computation without a loop that can be cut off. -/
def OnlyOutside {α : Type} (x : Except Halt α) : Prop := ∀ e, x = .error e → e = .outside

theorem onlyOutside_ok {α : Type} (a : α) : OnlyOutside (.ok a : Except Halt α) := by
  intro e h
  cases h

/-- A read fails outside the list and nowhere else. -/
theorem onlyOutside_getValue (xs : List ℤ) (i : ℕ) : OnlyOutside (getValue xs i) := by
  intro e h
  unfold getValue at h
  split_ifs at h
  cases h
  rfl

theorem onlyOutside_setValue (xs : List ℤ) (i : ℕ) (v : ℤ) : OnlyOutside (setValue xs i v) := by
  intro e h
  unfold setValue at h
  split_ifs at h
  cases h
  rfl

/-- Steps that fail only outside, one after the other. -/
theorem OnlyOutside.bind {α β : Type} {x : Except Halt α} {f : α → Except Halt β}
    (hx : OnlyOutside x) (hf : ∀ a, OnlyOutside (f a)) : OnlyOutside (x >>= f) := by
  intro e h
  cases x with
  | error e' =>
      cases h
      exact hx e rfl
  | ok a => exact hf a e h

/-- An element number that a kernel's cast keeps inside the table was not negative. -/
theorem setItem_of_setValue {xs ys : List ℤ} {i v : ℤ} (hlen : xs.length ≤ 2 ^ 31)
    (hi : -2 ^ 31 ≤ i ∧ i < 2 ^ 31) (h : setValue xs (u32 i) v = .ok ys) : setItem xs i v = .ok ys := by
  have hlt : u32 i < xs.length := by
    unfold setValue at h
    split_ifs at h with hlt
    exact hlt
  have hnonneg : 0 ≤ i := by
    by_contra hneg
    unfold u32 at hlt
    omega
  unfold setItem
  rw [if_pos hnonneg, ← u32_of_nonneg hnonneg (by omega)]
  exact h

/-- What the tables of a walk are, besides their contents. -/
structure Int32Row (d : Sizes) (row : Row) : Prop where
  index_length : row.index.length ≤ 2 ^ 31
  free_length : row.freeSlots.length ≤ 2 ^ 31
  slots : Int32s row.slotToIndex
  head : row.freeHead ≤ 2 ^ 31

/-- A store of an `int32` keeps the list one of `int32`s. -/
theorem Int32s.set {xs : List ℤ} (h : Int32s xs) (i : ℕ) {v : ℤ} (hv : -2 ^ 31 ≤ v ∧ v < 2 ^ 31) :
    Int32s (xs.set i v) := by
  intro z hz
  rcases List.mem_or_eq_of_mem_set hz with hold | rfl
  · exact h z hold
  · exact hv

/-- A turn of the kernels' walk is a turn of the reference's. -/
theorem expectedTurn_of_walkTurn (hd : d.Fits)
    (htest : ∀ slot : ℕ, WordBitmap.test protectedSlots slot = decide ((slot : ℤ) ∈ last))
    {offset : ℕ} {row : Row} (hrow : Int32Row d row) (hpos : row.freeHead > 0) {c : Walk}
    (h : walkTurn d protectedSlots ⟨(start + offset) % d.SLOT_COUNT, row⟩ = .ok c) :
    expectedTurn d last.toFinset start ⟨offset, row⟩ = .ok ⟨offset + 1, c.row⟩ ∧
      c.slot = (start + (offset + 1)) % d.SLOT_COUNT ∧ Int32Row d c.row := by
  have hi32 := hd.slot_i32
  have hslot : (start + offset) % d.SLOT_COUNT < d.SLOT_COUNT := Nat.mod_lt _ hd.slot_pos
  have hnext : next d.SLOT_COUNT ((start + offset) % d.SLOT_COUNT) =
      (start + (offset + 1)) % d.SLOT_COUNT := next_mod hd.slot_pos _
  have hhead := hrow.head
  unfold walkTurn at h
  dsimp only at h
  obtain ⟨indexId, hget, h⟩ := Folds.ok_of_bind h
  have hid : -2 ^ 31 ≤ indexId ∧ indexId < 2 ^ 31 := by
    unfold getValue at hget
    split_ifs at hget with hlt
    cases hget
    exact hrow.slots _ (List.getElem_mem hlt)
  -- both test the same slot
  have hguard : WordBitmap.test protectedSlots ((start + offset) % d.SLOT_COUNT) = false ↔
      (((start + offset) % d.SLOT_COUNT : ℕ) : ℤ) ∉ last.toFinset := by
    rw [htest, decide_eq_false_iff_not, List.mem_toFinset]
  unfold expectedTurn
  dsimp only
  rw [hget]
  simp only [bind, Except.bind, pure, Except.pure]
  split_ifs at h with hev
  · obtain ⟨slotToIndex, hslots, h⟩ := Folds.ok_of_bind h
    obtain ⟨index, hindex, h⟩ := Folds.ok_of_bind h
    obtain ⟨freeSlots, hfree, h⟩ := Folds.ok_of_bind h
    cases h
    have hcast : i32 (((start + offset) % d.SLOT_COUNT : ℕ) : ℤ) = ((start + offset) % d.SLOT_COUNT : ℕ) :=
      i32_of_lt (by omega) (by omega)
    dsimp only at hfree hindex hslots ⊢
    rw [hcast] at hfree
    rw [if_pos ⟨hev.1, hguard.mp hev.2⟩, hslots]
    dsimp only
    rw [setItem_of_setValue hrow.index_length hid hindex]
    dsimp only
    rw [setItem_of_setValue hrow.free_length ⟨by omega, by omega⟩ hfree]
    refine ⟨rfl, hnext, ?_, ?_, ?_, ?_⟩
    · rw [setValue_length hindex]
      exact hrow.index_length
    · rw [setValue_length hfree]
      exact hrow.free_length
    · unfold setValue at hslots
      split_ifs at hslots
      cases hslots
      exact hrow.slots.set _ (by decide)
    · show row.freeHead - 1 ≤ 2 ^ 31
      omega
  · cases h
    rw [if_neg fun hboth => hev ⟨hboth.1, hguard.mpr hboth.2⟩]
    exact ⟨rfl, hnext, hrow⟩

/-- A turn of the walk fails only outside the lists. -/
theorem walkTurn_error (c : Walk) : OnlyOutside (walkTurn d protectedSlots c) := by
  unfold walkTurn
  refine (onlyOutside_getValue _ _).bind fun indexId => ?_
  split_ifs
  · refine (onlyOutside_setValue _ _ _).bind fun slotToIndex => ?_
    refine (onlyOutside_setValue _ _ _).bind fun index => ?_
    refine (onlyOutside_setValue _ _ _).bind fun freeSlots => ?_
    exact onlyOutside_ok _
  · exact onlyOutside_ok _

/-- The two walks, turn by turn. -/
theorem expectedWalk_eq (hd : d.Fits)
    (htest : ∀ slot : ℕ, WordBitmap.test protectedSlots slot = decide ((slot : ℤ) ∈ last))
    {fuel offset : ℕ} {row : Row} (hrow : Int32Row d row) {r : Except Halt Row}
    (hr : r ≠ .error .outside)
    (h : walk d protectedSlots fuel ⟨(start + offset) % d.SLOT_COUNT, row⟩ = r) :
    expectedWalk d last.toFinset start fuel ⟨offset, row⟩ = r := by
  induction fuel generalizing offset row with
  | zero => exact h
  | succ fuel ih =>
      unfold walk at h
      unfold expectedWalk
      split_ifs at h ⊢ with hpos
      · cases hturn : walkTurn d protectedSlots ⟨(start + offset) % d.SLOT_COUNT, row⟩ with
        | error e =>
            rw [hturn, walkTurn_error _ e hturn] at h
            exact absurd h.symm hr
        | ok c =>
            obtain ⟨hexp, hslot, hrow'⟩ := expectedTurn_of_walkTurn hd htest hrow hpos hturn
            rw [hturn] at h
            rw [hexp]
            obtain ⟨slot, row'⟩ := c
            dsimp only at hslot
            rw [hslot] at h
            exact ih hrow' h
      · exact h

/-- The pass of a row, as the reference computes it. -/
theorem expectedMaintainRow_eq (hd : d.Fits) (hlen : last.length = d.QUERY_COUNT)
    (hlast : ∀ z ∈ last, 0 ≤ z ∧ z < d.SLOT_COUNT) {row : Row} (hrow : Int32Row d row)
    {fuel : ℕ} {seed reqId : UInt32} {r : Except Halt Row} (hr : r ≠ .error .outside)
    (h : maintainRow d fuel seed reqId last row = r) :
    expectedMaintainRow d fuel seed.toNat reqId.toNat last row = r := by
  obtain ⟨words, _, htest, hwalk⟩ := maintainRow_eq_walk hd hlen hlast
  have hstart := expectedStart_eq d (seed.toNat : ℤ) reqId.toNat
  rw [seedWord_toNat, UInt32.ofNat_toNat] at hstart
  have hmod : walkStart d seed reqId = (walkStart d seed reqId + 0) % d.SLOT_COUNT := by
    rw [Nat.add_zero, Nat.mod_eq_of_lt (walkStart_lt hd seed reqId)]
  rw [hwalk, hmod] at h
  unfold expectedMaintainRow
  rw [hstart]
  exact expectedWalk_eq hd htest hrow hr h

end

end AsuAscend.HbmIndex
