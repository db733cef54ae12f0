/-
Where the kernel's pointers point: a request's row of each tensor and its slice of
the workspace tensor, with the seven arrays that the kernel lays out in it by hand.

An address is a tensor and an element offset in it. The bases are 64-bit products of
`req_id`; `address_own` says that an element inside the request's arrays lies in the
request's own part of the tensor, `address_injective` that no two elements, of
whichever requests, share an address.

## By hand

The workspace has no structure of its own: the kernel cuts a request's slice into seven arrays by
adding up lengths, and a sum that is one too short would let two arrays overlap. `WorkArray` lists
the arrays with their bases and lengths, and `disjoint` is about any two of them; the stride of the
slice has room for all.
-/
import AsuAscend.Simt.Kernel

set_option autoImplicit false

open MachineWords

namespace AsuAscend.Simt

/-! ## The workspace slice -/

def ASU_HBM_WORKSPACE_STRIDE (d : Sizes) : ℕ := 3 * d.SLOT_COUNT + 3 * d.SIMT_THREADS + 4

/-! The kernel's pointers into the slice, less `req_workspace`. -/

namespace Pointer

variable (d : Sizes)

def hit_flags (_ : Sizes) : ℕ := 0

def hit_slots : ℕ := hit_flags d + d.SLOT_COUNT

def evictable_slots : ℕ := hit_slots d + d.SLOT_COUNT

def thread_hit_counts : ℕ := evictable_slots d + d.SLOT_COUNT

def thread_evict_counts : ℕ := thread_hit_counts d + d.SIMT_THREADS

def thread_miss_counts : ℕ := thread_evict_counts d + d.SIMT_THREADS

def counters : ℕ := thread_miss_counts d + d.SIMT_THREADS

end Pointer

/-- The arrays in a request's workspace slice. -/
inductive WorkArray where
  | hit_flags
  | hit_slots
  | evictable_slots
  | thread_hit_counts
  | thread_evict_counts
  | thread_miss_counts
  | counters
deriving DecidableEq

namespace WorkArray

variable (d : Sizes)

def base : WorkArray → ℕ
  | hit_flags => Pointer.hit_flags d
  | hit_slots => Pointer.hit_slots d
  | evictable_slots => Pointer.evictable_slots d
  | thread_hit_counts => Pointer.thread_hit_counts d
  | thread_evict_counts => Pointer.thread_evict_counts d
  | thread_miss_counts => Pointer.thread_miss_counts d
  | counters => Pointer.counters d

/-- The elements the kernel may use of it. -/
def length : WorkArray → ℕ
  | hit_flags => d.SLOT_COUNT
  | hit_slots => d.SLOT_COUNT
  | evictable_slots => d.SLOT_COUNT
  | thread_hit_counts => d.SIMT_THREADS
  | thread_evict_counts => d.SIMT_THREADS
  | thread_miss_counts => d.SIMT_THREADS
  | counters => 4

variable {d}

/-- Each array begins where the one before it ends. -/
theorem base_eq (x : WorkArray) : x.base d = match x with
    | hit_flags => 0
    | hit_slots => d.SLOT_COUNT
    | evictable_slots => 2 * d.SLOT_COUNT
    | thread_hit_counts => 3 * d.SLOT_COUNT
    | thread_evict_counts => 3 * d.SLOT_COUNT + d.SIMT_THREADS
    | thread_miss_counts => 3 * d.SLOT_COUNT + 2 * d.SIMT_THREADS
    | counters => 3 * d.SLOT_COUNT + 3 * d.SIMT_THREADS := by
  cases x <;> simp only [base, Pointer.hit_flags, Pointer.hit_slots, Pointer.evictable_slots,
    Pointer.thread_hit_counts, Pointer.thread_evict_counts, Pointer.thread_miss_counts,
    Pointer.counters] <;> omega

/-- The arrays fit the slice. -/
theorem fits (x : WorkArray) : x.base d + x.length d ≤ ASU_HBM_WORKSPACE_STRIDE d := by
  rw [base_eq]
  unfold ASU_HBM_WORKSPACE_STRIDE
  cases x <;> simp only [length] <;> omega

/-- **The arrays do not overlap.** -/
theorem disjoint {x y : WorkArray} (h : x ≠ y) :
    x.base d + x.length d ≤ y.base d ∨ y.base d + y.length d ≤ x.base d := by
  rw [base_eq, base_eq]
  cases x <;> cases y <;> first | exact absurd rfl h | (simp only [length]; omega)

/-- An element of the slice belongs to one array. -/
theorem base_add_injective {x y : WorkArray} {i j : ℕ} (hi : i < x.length d) (hj : j < y.length d)
    (h : x.base d + i = y.base d + j) : x = y ∧ i = j := by
  by_cases hxy : x = y
  · subst hxy
    exact ⟨rfl, by omega⟩
  · rcases disjoint (d := d) hxy with hd | hd <;> omega

end WorkArray

/-! ## Addresses -/

inductive Tensor where
  | token_to_slot
  | slot_to_token
  | lru_slots
  | query_token_ids
  | slot_ids
  | miss_mask
  | workspace
deriving DecidableEq

/-- The elements of one request. -/
def Tensor.stride (d : Sizes) : Tensor → ℕ
  | token_to_slot => d.INDEX_SIZE
  | slot_to_token => d.SLOT_COUNT
  | lru_slots => d.SLOT_COUNT
  | query_token_ids => d.QUERY_COUNT
  | slot_ids => d.QUERY_COUNT
  | miss_mask => d.QUERY_COUNT
  | workspace => ASU_HBM_WORKSPACE_STRIDE d

/-- The workspace array and the index of an element that is not in a tensor row. -/
def Cell.work : Cell → Option (WorkArray × ℕ)
  | hit_flags slot => some (.hit_flags, slot)
  | hit_slots i => some (.hit_slots, i)
  | evictable_slots i => some (.evictable_slots, i)
  | thread_hit_counts tid => some (.thread_hit_counts, tid)
  | thread_evict_counts tid => some (.thread_evict_counts, tid)
  | thread_miss_counts tid => some (.thread_miss_counts, tid)
  | counters i => some (.counters, i)
  | _ => none

/-- The tensor behind the pointer, and the element's offset from the request's base. -/
def Cell.place (d : Sizes) : Cell → Tensor × ℕ
  | token_to_slot token => (.token_to_slot, token)
  | slot_to_token slot => (.slot_to_token, slot)
  | lru_slots pos => (.lru_slots, pos)
  | query_token_ids pos => (.query_token_ids, pos)
  | slot_ids pos => (.slot_ids, pos)
  | miss_mask pos => (.miss_mask, pos)
  | hit_flags slot => (.workspace, WorkArray.hit_flags.base d + slot)
  | hit_slots i => (.workspace, WorkArray.hit_slots.base d + i)
  | evictable_slots i => (.workspace, WorkArray.evictable_slots.base d + i)
  | thread_hit_counts tid => (.workspace, WorkArray.thread_hit_counts.base d + tid)
  | thread_evict_counts tid => (.workspace, WorkArray.thread_evict_counts.base d + tid)
  | thread_miss_counts tid => (.workspace, WorkArray.thread_miss_counts.base d + tid)
  | counters i => (.workspace, WorkArray.counters.base d + i)

/-- The element's address: `static_cast<uint64_t>(req_id) * stride` and the offset. -/
def Cell.address (d : Sizes) (req_id : ℕ) (a : Cell) : Tensor × ℕ :=
  ((a.place d).1, u64 (req_id * (a.place d).1.stride d : ℕ) + (a.place d).2)

/-- A workspace element and its place in the slice. -/
theorem Cell.work_spec {d : Sizes} {a : Cell} {x : WorkArray} {i : ℕ} (h : a.work = some (x, i)) :
    a.place d = (.workspace, x.base d + i) ∧ (a.Inside d ↔ i < x.length d) := by
  cases a <;> simp only [work, Option.some.injEq, Prod.mk.injEq, reduceCtorEq] at h <;>
    obtain ⟨rfl, rfl⟩ := h <;> exact ⟨rfl, Iff.rfl⟩

/-- No two cells share a place in the workspace. -/
theorem Cell.work_injective {a b : Cell} {p : WorkArray × ℕ} (ha : a.work = some p)
    (hb : b.work = some p) : a = b := by
  cases a <;> cases ha <;> cases b <;> cases hb <;> rfl

/-- A cell outside the workspace is an element of a tensor row. -/
theorem Cell.row_spec {d : Sizes} {a : Cell} (h : a.work = none) :
    (a.place d).1 ≠ .workspace ∧ (a.Inside d ↔ (a.place d).2 < (a.place d).1.stride d) := by
  cases a <;> first | exact ⟨by simp [place], Iff.rfl⟩ | (simp [work] at h)

variable {d : Sizes}

/-- The offset of an element inside the request's arrays. -/
theorem place_lt {a : Cell} (ha : a.Inside d) : (a.place d).2 < (a.place d).1.stride d := by
  rcases hw : a.work with _ | ⟨x, i⟩
  · exact (Cell.row_spec hw).2.mp ha
  · obtain ⟨hp, hin⟩ := Cell.work_spec (d := d) hw
    have hfits := x.fits (d := d)
    have hi := hin.mp ha
    rw [hp]
    dsimp only [Tensor.stride]
    omega

/-- Nor in the tensors and the workspace together. -/
theorem place_injective {a b : Cell} (ha : a.Inside d) (hb : b.Inside d)
    (h : a.place d = b.place d) : a = b := by
  rcases hwa : a.work with _ | ⟨x, i⟩ <;> rcases hwb : b.work with _ | ⟨y, j⟩
  · -- two row elements: the tensor names the constructor
    cases a <;> cases b <;> simp_all [Cell.place, Cell.work]
  · have hne := (Cell.row_spec (d := d) hwa).1
    rw [h, (Cell.work_spec hwb).1] at hne
    exact absurd rfl hne
  · have hne := (Cell.row_spec (d := d) hwb).1
    rw [← h, (Cell.work_spec hwa).1] at hne
    exact absurd rfl hne
  · obtain ⟨hpa, hia⟩ := Cell.work_spec (d := d) hwa
    obtain ⟨hpb, hjb⟩ := Cell.work_spec (d := d) hwb
    rw [hpa, hpb] at h
    obtain ⟨rfl, rfl⟩ := WorkArray.base_add_injective (hia.mp ha) (hjb.mp hb) (Prod.mk.inj h).2
    exact Cell.work_injective hwa hwb

/-- The 64-bit base does not wrap. -/
theorem address_eq {req_id : ℕ} (hreq : ∀ x : Tensor, req_id * x.stride d < 2 ^ 64) (a : Cell) :
    a.address d req_id
      = ((a.place d).1, req_id * (a.place d).1.stride d + (a.place d).2) := by
  unfold Cell.address
  rw [u64_natCast (hreq _)]

/-- **An element inside the request's arrays is in the request's own part** of its
tensor. -/
theorem address_own {req_id : ℕ} (hreq : ∀ x : Tensor, req_id * x.stride d < 2 ^ 64) {a : Cell}
    (ha : a.Inside d) :
    req_id * (a.address d req_id).1.stride d ≤ (a.address d req_id).2 ∧
      (a.address d req_id).2 < (req_id + 1) * (a.address d req_id).1.stride d := by
  have hlt := place_lt ha
  rw [address_eq hreq]
  dsimp only
  rw [Nat.add_one_mul]
  omega

/-- **No two elements share an address**, not even of two requests. -/
theorem address_injective {r r' : ℕ} (hr : ∀ x : Tensor, r * x.stride d < 2 ^ 64)
    (hr' : ∀ x : Tensor, r' * x.stride d < 2 ^ 64) {a b : Cell} (ha : a.Inside d) (hb : b.Inside d)
    (h : a.address d r = b.address d r') : r = r' ∧ a = b := by
  have hla := place_lt ha
  have hlb := place_lt hb
  rw [address_eq hr, address_eq hr'] at h
  obtain ⟨htensor, hoff⟩ := Prod.mk.inj h
  rw [← htensor] at hoff hlb
  -- quotient and remainder by the stride
  have hpos : 0 < (a.place d).1.stride d := by omega
  have hquot : ∀ q x : ℕ, x < (a.place d).1.stride d →
      (q * (a.place d).1.stride d + x) / (a.place d).1.stride d = q := by
    intro q x hx
    rw [Nat.add_comm, Nat.add_mul_div_right _ _ hpos, Nat.div_eq_of_lt hx, Nat.zero_add]
  have hdiv : r = r' := by rw [← hquot r _ hla, hoff, hquot r' _ hlb]
  subst hdiv
  exact ⟨rfl, place_injective ha hb (Prod.ext htensor (by omega))⟩

/-- A 32-bit request number keeps every 64-bit base in range. -/
theorem asu_base_lt {req_id : ℕ} (h : req_id < 2 ^ 32) (x : Tensor) :
    req_id * x.stride asuSizes < 2 ^ 64 := by
  have hs : x.stride asuSizes ≤ 2 ^ 32 := by cases x <;> decide
  calc req_id * x.stride asuSizes ≤ req_id * 2 ^ 32 := Nat.mul_le_mul_left _ hs
    _ < 2 ^ 32 * 2 ^ 32 := Nat.mul_lt_mul_of_pos_right h (by decide)
    _ = 2 ^ 64 := by norm_num

end AsuAscend.Simt
