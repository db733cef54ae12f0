/-
When the scan of the maintenance ends, and what it has done then.

The scan has no bound of its own. It runs in circles, forever, when fewer occupied
slots are unprotected than it has to take back (`walk_spins`); otherwise it ends
within one turn of the slot table, having visited no slot twice (`walkVisits_spec`).

## What is proved

`maintain_scan` states for kernel and reference alike, on a row in the state that the operators
keep between lookup and maintenance (`Maintainable`):

* some fuel is enough if and only if there are as many unprotected occupied slots as the head says;
* the slots visited are in circular order from the hashed start, none of them twice;
* the victims are the first unprotected occupied ones, in this order;
* their slots and tokens are cleared, the free list has them before the old head, in the order in
  which they were pushed, and nothing else has changed.
-/
import AsuAscend.HbmIndex.ExpectedMaintain
import AsuAscend.HbmIndex.Rounds

set_option autoImplicit false

open MachineWords SentinelTable CircularOrder

namespace AsuAscend.HbmIndex

/-! ## The slots that the scan visits -/

/-- The slots that `walk` looks at, one after the other. -/
def walkVisits (d : Sizes) (protectedSlots : ProtectedSlots) : ℕ → Walk → List ℕ
  | 0, _ => []
  | fuel + 1, c =>
      if c.row.freeHead > 0 then
        c.slot :: match walkTurn d protectedSlots c with
          | .ok c' => walkVisits d protectedSlots fuel c'
          | .error _ => []
      else []

section

variable {d : Sizes} {row : Row} {protectedSlots : ProtectedSlots} {start : ℕ}

/-- With enough slots to free, the scan visits a part of one turn of the slot table. -/
theorem walkVisits_spec (hd : d.Fits) (hw : Walkable d row) (hstart : start < d.SLOT_COUNT)
    (henough : row.freeHead ≤ (evictables d row protectedSlots start d.SLOT_COUNT).length)
    (fuel : ℕ) : ∃ len ≤ d.SLOT_COUNT,
      walkVisits d protectedSlots fuel ⟨start, row⟩ = order d.SLOT_COUNT start len := by
  -- from turn `k` on
  have key : ∀ fuel k, k ≤ d.SLOT_COUNT → ∃ len, k + len ≤ d.SLOT_COUNT ∧
      walkVisits d protectedSlots fuel ⟨(start + k) % d.SLOT_COUNT,
        evictAll row (evictables d row protectedSlots start k)⟩ =
        (List.range' k len).map fun k => (start + k) % d.SLOT_COUNT := by
    intro fuel
    induction fuel with
    | zero => exact fun k hk => ⟨0, hk, rfl⟩
    | succ fuel ih =>
        intro k hk
        unfold walkVisits
        split_ifs with hpos
        · have hlt : k < d.SLOT_COUNT := by
            apply Nat.lt_of_le_of_ne hk
            intro heq
            dsimp only at hpos
            rw [heq, evictAll_freeHead] at hpos
            omega
          obtain ⟨len, hlen, hvisits⟩ := ih (k + 1) hlt
          refine ⟨len + 1, by omega, ?_⟩
          rw [walkTurn_spec hd hw hlt hpos, List.range'_succ, List.map_cons]
          exact congrArg _ hvisits
        · exact ⟨0, hk, rfl⟩
  obtain ⟨len, hlen, hvisits⟩ := key fuel 0 (Nat.zero_le _)
  refine ⟨len, by omega, ?_⟩
  have hzero : evictables d row protectedSlots start 0 = [] := rfl
  rw [Nat.add_zero, Nat.mod_eq_of_lt hstart, hzero, evictAll_nil, ← List.range_eq_range'] at hvisits
  exact hvisits

/-- The evictable slots, however they are found. -/
def evictableCount (d : Sizes) (row : Row) (protectedSlots : ProtectedSlots) : ℕ :=
  ((List.range d.SLOT_COUNT).filter (Evictable row protectedSlots ·)).length

/-- One turn takes every occupied and unprotected slot, wherever it starts. -/
theorem evictables_length (hd : d.Fits) (start : ℕ) :
    (evictables d row protectedSlots start d.SLOT_COUNT).length =
      evictableCount d row protectedSlots :=
  ((order_perm hd.slot_pos).filter _).length_eq

/-- There are no more victims than such slots. -/
theorem Victims.length_le {vs : List ℕ} (h : Victims d row protectedSlots vs) :
    vs.length ≤ evictableCount d row protectedSlots := by
  apply (List.subperm_of_subset h.nodup fun v hv => ?_).length_le
  rw [List.mem_filter, List.mem_range, decide_eq_true_iff]
  exact ⟨h.lt v hv, h.evictable v hv⟩

/-- One turn more: the slot that comes up joins the victims, if it may and has not yet. -/
theorem Victims.step {vs : List ℕ} (h : Victims d row protectedSlots vs) {slot : ℕ}
    (hslot : slot < d.SLOT_COUNT) : Victims d row protectedSlots
      (if slot ∉ vs ∧ Evictable row protectedSlots slot then vs ++ [slot] else vs) := by
  split_ifs with hnew
  · obtain ⟨hmem, hev⟩ := hnew
    refine ⟨?_, fun v hv => ?_, fun v hv => ?_⟩
    · rw [List.nodup_append]
      refine ⟨h.nodup, List.nodup_singleton slot, fun a ha b hb hab => ?_⟩
      rw [List.mem_singleton] at hb
      rw [hab, hb] at ha
      exact hmem ha
    · rcases List.mem_append.mp hv with hv | hv
      · exact h.lt v hv
      · rw [List.mem_singleton.mp hv]
        exact hslot
    · rcases List.mem_append.mp hv with hv | hv
      · exact h.evictable v hv
      · rw [List.mem_singleton.mp hv]
        exact hev
  · exact h

theorem victims_nil : Victims d row protectedSlots [] :=
  ⟨List.nodup_nil, fun _ h => absurd h List.not_mem_nil, fun _ h => absurd h List.not_mem_nil⟩

/-- The scan stays inside its tables, however long it runs. -/
theorem walk_inside (hd : d.Fits) (hw : Walkable d row) (fuel : ℕ) {vs : List ℕ}
    (hvs : Victims d row protectedSlots vs) {slot : ℕ} (hslot : slot < d.SLOT_COUNT) :
    walk d protectedSlots fuel ⟨slot, evictAll row vs⟩ ≠ .error .outside := by
  induction fuel generalizing vs slot with
  | zero =>
      unfold walk
      split_ifs
      · exact fun h => by cases h
      · exact fun h => by cases h
  | succ fuel ih =>
      unfold walk
      split_ifs with hpos
      · rw [walkTurn_evictAll hd hw hvs hslot hpos]
        exact ih (hvs.step hslot) (next_lt hslot)
      · exact fun h => by cases h

/-- With too few slots to free, the scan never ends. -/
theorem walk_spins (hd : d.Fits) (hw : Walkable d row)
    (hfew : (evictableCount d row protectedSlots : ℤ) < row.freeHead) (fuel : ℕ) {vs : List ℕ}
    (hvs : Victims d row protectedSlots vs) {slot : ℕ} (hslot : slot < d.SLOT_COUNT) :
    walk d protectedSlots fuel ⟨slot, evictAll row vs⟩ = .error .outOfFuel := by
  induction fuel generalizing vs slot with
  | zero =>
      have hle := hvs.length_le
      exact if_pos (by rw [evictAll_freeHead]; omega)
  | succ fuel ih =>
      have hle := hvs.length_le
      have hpos : (evictAll row vs).freeHead > 0 := by
        rw [evictAll_freeHead]
        omega
      rw [walk, if_pos hpos, walkTurn_evictAll hd hw hvs hslot hpos]
      exact ih (hvs.step hslot) (next_lt hslot)

/-- More fuel than the walk needs does not change what it comes to. -/
theorem walk_mono {fuel fuel' : ℕ} (hle : fuel ≤ fuel') {c : Walk} {row' : Row}
    (h : walk d protectedSlots fuel c = .ok row') : walk d protectedSlots fuel' c = .ok row' := by
  induction fuel generalizing fuel' c with
  | zero =>
      unfold walk at h
      split_ifs at h with hpos
      cases fuel' with
      | zero => exact (if_neg hpos).trans h
      | succ fuel' => exact (if_neg hpos).trans h
  | succ fuel ih =>
      obtain ⟨fuel', rfl⟩ := Nat.exists_eq_add_of_le' (Nat.le_trans (Nat.le_add_left 1 fuel) hle)
      unfold walk at h ⊢
      split_ifs at h ⊢ with hpos
      · obtain ⟨c', hturn, h⟩ := Folds.ok_of_bind h
        rw [hturn]
        exact ih (Nat.le_of_succ_le_succ hle) h
      · exact h

/-- A scan that has ended had enough slots to free. -/
theorem walk_enough (hd : d.Fits) (hw : Walkable d row) {fuel start : ℕ} (hstart : start < d.SLOT_COUNT)
    {row' : Row} (h : walk d protectedSlots fuel ⟨start, row⟩ = .ok row') :
    row.freeHead ≤ evictableCount d row protectedSlots := by
  by_contra hfew
  rw [← evictAll_nil row, walk_spins hd hw (by omega) fuel victims_nil hstart] at h
  cases h

/-- A scan that has ended has freed the first of them, as one with fuel for a whole turn does. -/
theorem walk_ok (hd : d.Fits) (hw : Walkable d row) {fuel start : ℕ} (hstart : start < d.SLOT_COUNT)
    (hhead : 0 ≤ row.freeHead) {row' : Row}
    (h : walk d protectedSlots fuel ⟨start, row⟩ = .ok row') :
    row' = evictAll row ((evictables d row protectedSlots start d.SLOT_COUNT).take
      row.freeHead.toNat) := by
  have henough := walk_enough hd hw hstart h
  have hfound : row.freeHead.toNat ≤ (evictables d row protectedSlots start d.SLOT_COUNT).length := by
    rw [evictables_length hd]
    omega
  have hspec := walk_spec hd hw hstart (Int.toNat_of_nonneg hhead).symm hfound
    (Nat.le_max_right fuel d.SLOT_COUNT)
  rw [walk_mono (Nat.le_max_left fuel d.SLOT_COUNT) h] at hspec
  exact Except.ok.inj hspec

end

/-! ## What is freed -/

/-- The tables after the victims, taken in this order, have been freed. -/
structure Freed (row : Row) (victims : List ℕ) (row' : Row) : Prop where
  freeHead : row'.freeHead = row.freeHead - victims.length
  slots : ∀ slot, read row'.slotToIndex slot =
    if slot ∈ victims then NOT_FOUND else read row.slotToIndex slot
  index : ∀ token : ℕ, read row'.index token =
    if ∃ v ∈ victims, read row.slotToIndex v = token then NOT_FOUND else read row.index token
  pushed : ∀ j v : ℕ, victims[j]? = some v → read row'.freeSlots (row.freeHead.toNat - 1 - j) = v
  kept : ∀ i, i < row.freeHead.toNat - victims.length ∨ row.freeHead.toNat ≤ i →
    read row'.freeSlots i = read row.freeSlots i
  lengths : row'.index.length = row.index.length ∧
    row'.slotToIndex.length = row.slotToIndex.length ∧
    row'.freeSlots.length = row.freeSlots.length

/-- A row that the scan can work on. -/
structure Maintainable (d : Sizes) (row : Row) : Prop where
  index_length : row.index.length = d.INDEX_SIZE
  slot_length : row.slotToIndex.length = d.SLOT_COUNT
  free_length : row.freeSlots.length = d.FREE_SLOT_COUNT
  token : ∀ slot < d.SLOT_COUNT, read row.slotToIndex slot = NOT_FOUND ∨
    (0 ≤ read row.slotToIndex slot ∧ read row.slotToIndex slot < d.INDEX_SIZE)
  freeHead : 0 ≤ row.freeHead ∧ row.freeHead ≤ d.FREE_SLOT_COUNT

section

variable {d : Sizes} {row : Row}

theorem Maintainable.walkable (hd : d.Fits) (h : Maintainable d row) : Walkable d row where
  slot_length := h.slot_length
  token_lt := by
    intro slot hslot hocc
    have hi32 := hd.index_i32
    obtain ⟨h0, h1⟩ := (h.token slot hslot).resolve_left hocc
    rw [u32_of_nonneg h0 (by omega), h.index_length]
    omega
  head_le := by
    rw [h.free_length]
    exact h.freeHead.2
  free_i32 := by
    rw [h.free_length]
    exact hd.free_i32

theorem freed_nil (row : Row) : Freed row [] row where
  freeHead := by rw [List.length_nil]; omega
  slots := fun _ => (if_neg List.not_mem_nil).symm
  index := fun token => by
    rw [if_neg]
    rintro ⟨v, hv, _⟩
    exact absurd hv List.not_mem_nil
  pushed := fun j v hv => by rw [List.getElem?_nil] at hv; cases hv
  kept := fun _ _ => rfl
  lengths := ⟨rfl, rfl, rfl⟩

section Next

variable {vs : List ℕ} {row' : Row} {v : ℕ}

/-- A slot that can be freed after `vs`. -/
structure Next (d : Sizes) (row : Row) (vs : List ℕ) (v : ℕ) : Prop where
  lt : v < d.SLOT_COUNT
  fresh : v ∉ vs
  occupied : read row.slotToIndex v ≠ NOT_FOUND
  room : (vs.length : ℤ) + 1 ≤ row.freeHead

/-- It still holds its token. -/
theorem Freed.token (hf : Freed row vs row') (hn : Next d row vs v) :
    read row'.slotToIndex v = read row.slotToIndex v := by
  rw [hf.slots, if_neg hn.fresh]

/-- The slot table with one slot more taken back. -/
theorem Freed.slots_concat (h : Maintainable d row) (hf : Freed row vs row') (hn : Next d row vs v)
    (slot : ℕ) : read (evictSlot row' v).slotToIndex slot =
      if slot ∈ vs ++ [v] then NOT_FOUND else read row.slotToIndex slot := by
  have hlt : v < row'.slotToIndex.length := by
    rw [hf.lengths.2.1, h.slot_length]
    exact hn.lt
  show read (row'.slotToIndex.set v NOT_FOUND) slot = _
  rw [read_set hlt, hf.slots]
  by_cases hslot : slot = v
  · rw [if_pos hslot, if_pos (List.mem_append_right vs (List.mem_singleton.mpr hslot))]
  · rw [if_neg hslot]
    simp only [List.mem_append, List.mem_singleton, hslot, or_false]

/-- The index with one token more cleared. Residents are distinct, so nobody else loses an
entry. -/
theorem Freed.index_concat (hd : d.Fits) (h : Maintainable d row) (hf : Freed row vs row')
    (hn : Next d row vs v) (token : ℕ) : read (evictSlot row' v).index token =
      if ∃ u ∈ vs ++ [v], read row.slotToIndex u = token then NOT_FOUND else read row.index token := by
  have hi32 := hd.index_i32
  obtain ⟨h0, h1⟩ := (h.token v hn.lt).resolve_left hn.occupied
  have htoken : u32 (read row'.slotToIndex v) = (read row.slotToIndex v).toNat := by
    rw [hf.token hn]
    exact u32_of_nonneg h0 (by omega)
  have hlt : (read row.slotToIndex v).toNat < row'.index.length := by
    rw [hf.lengths.1, h.index_length]
    omega
  show read (row'.index.set (u32 (read row'.slotToIndex v)) NOT_FOUND) token = _
  rw [htoken, read_set hlt, hf.index]
  -- an entry is cleared for the token of the new victim or of one before it
  by_cases heq : token = (read row.slotToIndex v).toNat
  · have hex : ∃ u ∈ vs ++ [v], read row.slotToIndex u = token :=
      ⟨v, List.mem_append_right vs (List.mem_singleton.mpr rfl), by omega⟩
    rw [if_pos heq, if_pos hex]
  · have hiff : (∃ u ∈ vs ++ [v], read row.slotToIndex u = token) ↔
        ∃ u ∈ vs, read row.slotToIndex u = token := by
      constructor
      · rintro ⟨u, hu, hut⟩
        rcases List.mem_append.mp hu with hu | hu
        · exact ⟨u, hu, hut⟩
        · rw [List.mem_singleton.mp hu] at hut
          exact absurd (by omega) heq
      · rintro ⟨u, hu, hut⟩
        exact ⟨u, List.mem_append_left [v] hu, hut⟩
    rw [if_neg heq]
    simp only [hiff]

/-- The slot is pushed below those that are there. -/
theorem Freed.free_concat (hd : d.Fits) (h : Maintainable d row) (hf : Freed row vs row')
    (hn : Next d row vs v) (i : ℕ) : read (evictSlot row' v).freeSlots i =
      if i = row.freeHead.toNat - 1 - vs.length then (v : ℤ) else read row'.freeSlots i := by
  have hf32 := hd.free_i32
  have hroom := hn.room
  have hhead := h.freeHead
  have hfree := hf.freeHead
  have htop : u32 (row'.freeHead - 1) = row.freeHead.toNat - 1 - vs.length := by
    rw [u32_of_nonneg (by omega) (by omega)]
    omega
  have hlt : row.freeHead.toNat - 1 - vs.length < row'.freeSlots.length := by
    rw [hf.lengths.2.2, h.free_length]
    omega
  show read (row'.freeSlots.set (u32 (row'.freeHead - 1)) v) i = _
  rw [htop, read_set hlt]

/-- One more victim. -/
theorem Freed.concat (hd : d.Fits) (h : Maintainable d row) (hf : Freed row vs row')
    (hn : Next d row vs v) : Freed row (vs ++ [v]) (evictSlot row' v) := by
  have hroom := hn.room
  have hlength : (vs ++ [v]).length = vs.length + 1 := by
    rw [List.length_append, List.length_singleton]
  refine ⟨?_, hf.slots_concat h hn, hf.index_concat hd h hn, fun j u hu => ?_, fun i hi => ?_, ?_⟩
  · have hfree := hf.freeHead
    rw [hlength]
    show row'.freeHead - 1 = _
    omega
  · rw [hf.free_concat hd h hn]
    by_cases hj : j < vs.length
    · rw [if_neg (by omega)]
      rw [List.getElem?_append_left hj] at hu
      exact hf.pushed j u hu
    · have hjeq : j = vs.length := by
        have hlt := (List.getElem?_eq_some_iff.mp hu).1
        omega
      rw [hjeq, List.getElem?_append_right le_rfl, Nat.sub_self, List.getElem?_cons_zero] at hu
      rw [if_pos (by rw [hjeq]), Option.some.inj hu]
  · rw [hlength] at hi
    rw [hf.free_concat hd h hn, if_neg (by omega)]
    exact hf.kept i (by omega)
  · obtain ⟨hindex, hslots, hfree⟩ := hf.lengths
    exact ⟨(List.length_set).trans hindex, (List.length_set).trans hslots, (List.length_set).trans hfree⟩

end Next

/-- **What the walk frees**, as a statement about the lists before and after. -/
theorem evictAll_freed (hd : d.Fits) (h : Maintainable d row) {vs : List ℕ} (hnd : vs.Nodup)
    (hocc : ∀ v ∈ vs, v < d.SLOT_COUNT ∧ read row.slotToIndex v ≠ NOT_FOUND)
    (hle : (vs.length : ℤ) ≤ row.freeHead) : Freed row vs (evictAll row vs) := by
  induction vs using List.reverseRecOn with
  | nil => exact freed_nil row
  | append_singleton vs v ih =>
      rw [List.length_append, List.length_singleton] at hle
      rw [List.nodup_append] at hnd
      have hv := hocc v (List.mem_append_right vs (List.mem_singleton.mpr rfl))
      have hfresh : v ∉ vs := fun hmem =>
        hnd.2.2 v hmem v (List.mem_singleton.mpr rfl) rfl
      have ih := ih hnd.1 (fun u hu => hocc u (List.mem_append_left [v] hu)) (by omega)
      rw [evictAll_concat]
      exact ih.concat hd h ⟨hv.1, hfresh, hv.2, by omega⟩

/-! ## The pass -/

/-- The slots that the scan of `maintainRow` visits. -/
def maintainVisits (d : Sizes) (fuel : ℕ) (seed reqId : UInt32) (lastQuerySlots : List ℤ) (row : Row) :
    List ℕ :=
  match (List.range d.QUERY_COUNT).foldlM (fun words i => do
      markProtectedSlot words (← getValue lastQuerySlots i)) (clearProtectedSlots d) with
  | .ok words => walkVisits d words fuel ⟨walkStart d seed reqId, row⟩
  | .error _ => []

/-- The slots of a list that are occupied and not protected. -/
def unprotected (row : Row) (last : List ℤ) (slots : List ℕ) : List ℕ :=
  slots.filter fun slot => read row.slotToIndex slot ≠ NOT_FOUND ∧ (slot : ℤ) ∉ last

/-- With the bitmap of the last query, the slots that the walk takes are the unprotected ones in
the order of the ring. -/
theorem evictables_eq {last : List ℤ} {words : ProtectedSlots}
    (htest : ∀ slot : ℕ, WordBitmap.test words slot = decide ((slot : ℤ) ∈ last)) (start : ℕ) :
    evictables d row words start d.SLOT_COUNT =
      unprotected row last (order d.SLOT_COUNT start d.SLOT_COUNT) := by
  unfold evictables unprotected
  simp only [evictable_iff htest]

/-- A row in order is one of `int32`s, so that the narrowing stores keep every entry. -/
theorem Maintainable.int32Row (hd : d.Fits) (h : Maintainable d row) : Int32Row d row where
  index_length := by
    rw [h.index_length]
    exact hd.index_i32
  free_length := by
    rw [h.free_length]
    exact hd.free_i32
  slots := by
    intro z hz
    have hi32 := hd.index_i32
    obtain ⟨slot, hslot, rfl⟩ := mem_iff_read.mp hz
    rw [h.slot_length] at hslot
    rcases h.token slot hslot with hnone | ⟨h0, h1⟩
    · rw [hnone]
      decide
    · omega
  head := by
    have hf32 := hd.free_i32
    have := h.freeHead.2
    omega

/-- What one pass over a row does, when it ends. -/
structure Scanned (d : Sizes) (seed reqId : UInt32) (last : List ℤ) (row row' : Row) (visits : List ℕ) :
    Prop where
  visits : visits.Nodup
  length : ((unprotected row last (order d.SLOT_COUNT (walkStart d seed reqId) d.SLOT_COUNT)).take
    row.freeHead.toNat).length = row.freeHead
  freed : Freed row ((unprotected row last
    (order d.SLOT_COUNT (walkStart d seed reqId) d.SLOT_COUNT)).take row.freeHead.toNat) row'
  freeHead : row'.freeHead = 0

/-- **The pass of a row** returns for some fuel if and only if there are enough slots, and it
frees the first ones of the ring. -/
theorem maintainRow_scanned (hd : d.Fits) (h : Maintainable d row) {last : List ℤ}
    (hlen : last.length = d.QUERY_COUNT) (hlast : ∀ z ∈ last, 0 ≤ z ∧ z < d.SLOT_COUNT)
    (seed reqId : UInt32) :
    ((∃ fuel row', maintainRow d fuel seed reqId last row = .ok row') ↔
      row.freeHead ≤ (unprotected row last (List.range d.SLOT_COUNT)).length) ∧
    ∀ fuel, maintainRow d fuel seed reqId last row ≠ .error .outside ∧
      ∀ row', maintainRow d fuel seed reqId last row = .ok row' →
        Scanned d seed reqId last row row' (maintainVisits d fuel seed reqId last row) := by
  have hw := h.walkable hd
  have hhead := h.freeHead
  have hstart := walkStart_lt hd seed reqId
  obtain ⟨words, hwords, htest, hwalk⟩ := maintainRow_eq_walk hd hlen hlast
  -- what the words protect is what the last queries name
  have hlist : evictables d row words (walkStart d seed reqId) d.SLOT_COUNT =
      unprotected row last (order d.SLOT_COUNT (walkStart d seed reqId) d.SLOT_COUNT) :=
    evictables_eq htest _
  have hcount : (unprotected row last (List.range d.SLOT_COUNT)).length =
      evictableCount d row words := by
    unfold unprotected evictableCount
    simp only [evictable_iff htest]
  have hturn : (evictables d row words (walkStart d seed reqId) d.SLOT_COUNT).length =
      evictableCount d row words := evictables_length hd _
  refine ⟨⟨?_, fun hle => ?_⟩, fun fuel => ⟨?_, fun row' hrun => ?_⟩⟩
  · rintro ⟨fuel, row', hrun⟩
    rw [hwalk] at hrun
    rw [hcount]
    exact walk_enough hd hw hstart hrun
  · -- one turn of the table is fuel enough
    refine ⟨d.SLOT_COUNT, evictAll row ((evictables d row words (walkStart d seed reqId)
      d.SLOT_COUNT).take row.freeHead.toNat), ?_⟩
    rw [hwalk]
    exact walk_spec hd hw hstart (Int.toNat_of_nonneg hhead.1).symm (by omega) le_rfl
  · rw [hwalk, ← evictAll_nil row]
    exact walk_inside hd hw fuel victims_nil hstart
  · rw [hwalk] at hrun
    have hle := walk_enough hd hw hstart hrun
    have hlength : ((evictables d row words (walkStart d seed reqId) d.SLOT_COUNT).take
        row.freeHead.toNat).length = row.freeHead := by
      rw [List.length_take]
      omega
    have hfreed : Freed row ((evictables d row words (walkStart d seed reqId) d.SLOT_COUNT).take
        row.freeHead.toNat) row' := by
      rw [walk_ok hd hw hstart hhead.1 hrun]
      apply evictAll_freed hd h ((evictables_nodup _ le_rfl).sublist (List.take_sublist _ _))
      · intro v hv
        obtain ⟨hmem, hev⟩ := mem_evictables (List.mem_of_mem_take hv)
        exact ⟨lt_of_mem_order hd.slot_pos hmem, hev.1⟩
      · omega
    refine ⟨?_, ?_, ?_, ?_⟩
    · have hfound : row.freeHead ≤
          (evictables d row words (walkStart d seed reqId) d.SLOT_COUNT).length := by omega
      obtain ⟨len, hlenle, hvisits⟩ := walkVisits_spec hd hw hstart hfound fuel
      unfold maintainVisits
      rw [hwords]
      dsimp only
      rw [hvisits]
      exact order_nodup _ hlenle
    · rw [← hlist]
      exact hlength
    · rw [← hlist]
      exact hfreed
    · rw [hfreed.freeHead, hlength]
      omega

end

/-- **The scan**, of the kernels and of `expected_maintain`. It ends exactly when enough occupied
slots are unprotected; then it has visited no slot twice and has freed the first of them in circular
order. -/
theorem maintain_scan {row : Row} (hrow : Maintainable hbmSizes row) {last : List ℤ}
    (hlen : last.length = hbmSizes.QUERY_COUNT) (hlast : ∀ z ∈ last, 0 ≤ z ∧ z < hbmSizes.SLOT_COUNT)
    (seed reqId : UInt32) :
    ((∃ fuel row', maintainRow hbmSizes fuel seed reqId last row = .ok row') ↔
      row.freeHead ≤ (unprotected row last (List.range hbmSizes.SLOT_COUNT)).length) ∧
    ∀ fuel, maintainRow hbmSizes fuel seed reqId last row ≠ .error .outside ∧
      expectedMaintainRow hbmSizes fuel seed.toNat reqId.toNat last row =
        maintainRow hbmSizes fuel seed reqId last row ∧
      ∀ row', maintainRow hbmSizes fuel seed reqId last row = .ok row' →
        Scanned hbmSizes seed reqId last row row' (maintainVisits hbmSizes fuel seed reqId last row) := by
  obtain ⟨hends, hrun⟩ := maintainRow_scanned hbmSizes_fits hrow hlen hlast seed reqId
  refine ⟨hends, fun fuel => ⟨(hrun fuel).1, ?_, (hrun fuel).2⟩⟩
  exact expectedMaintainRow_eq hbmSizes_fits hlen hlast (hrow.int32Row hbmSizes_fits) (hrun fuel).1 rfl

/-- A row in order after a lookup, with the head that the lookup has left. -/
theorem Ready.maintainable {d : Sizes} {row : Row} (h : Ready d row) {head : ℤ} (h0 : 0 ≤ head)
    (h1 : head ≤ d.FREE_SLOT_COUNT) : Maintainable d { row with freeHead := head } where
  index_length := h.index_length
  slot_length := h.slot_length
  free_length := h.free_length
  token := by
    intro slot hslot
    have hlt : slot < row.slotToIndex.length := by
      rw [h.slot_length]
      exact hslot
    rcases h.inverse.bwd slot hlt with hnone | ⟨token, htoken, hread, _⟩
    · exact Or.inl hnone
    · rw [h.index_length] at htoken
      dsimp only
      omega
  freeHead := ⟨h0, h1⟩

/-- In the row of the example a resident slot that the last query does not name is unprotected. -/
theorem mem_unprotected_indexCase {d : Sizes} {resident slot : ℕ} (hslot : slot < d.SLOT_COUNT)
    (hres : slot < resident) {head : ℤ} {last : List ℤ} (hlast : (slot : ℤ) ∉ last) :
    slot ∈ unprotected { indexCase d resident with freeHead := head } last (List.range d.SLOT_COUNT) := by
  unfold unprotected
  rw [List.mem_filter, List.mem_range, decide_eq_true_iff]
  refine ⟨hslot, ?_, hlast⟩
  show read ((List.range d.SLOT_COUNT).map _) slot ≠ NOT_FOUND
  rw [read_map_range hslot, if_pos hres]
  unfold NOT_FOUND
  omega

/-- Three slots to take back, with slot 0 protected: the pass ends, and has scanned for them. -/
theorem maintain_scan_three_slots : ∃ fuel row', maintainRow hbmSizes fuel 7 0 (List.replicate 2048 0)
      { indexCase hbmSizes 8192 with freeHead := 3 } = .ok row' ∧
    Scanned hbmSizes 7 0 (List.replicate 2048 0) { indexCase hbmSizes 8192 with freeHead := 3 } row'
      (maintainVisits hbmSizes fuel 7 0 (List.replicate 2048 0)
        { indexCase hbmSizes 8192 with freeHead := 3 }) := by
  have hready : Ready hbmSizes (indexCase hbmSizes 8192) := indexCase_ready (by decide) (by decide)
  have hsub : [1, 2, 3] ⊆ unprotected { indexCase hbmSizes 8192 with freeHead := 3 }
      (List.replicate 2048 0) (List.range hbmSizes.SLOT_COUNT) := by
    intro slot hslot
    have hrange : 1 ≤ slot ∧ slot ≤ 3 := by
      simp only [List.mem_cons, List.not_mem_nil, or_false] at hslot
      omega
    have hcount : hbmSizes.SLOT_COUNT = 10240 := rfl
    refine mem_unprotected_indexCase (by omega) (by omega) fun h => ?_
    have := List.eq_of_mem_replicate h
    omega
  have hthree : (3 : ℤ) ≤ _ := Int.ofNat_le.mpr (List.subperm_of_subset (by decide) hsub).length_le
  have hlast : ∀ z ∈ List.replicate 2048 (0 : ℤ), 0 ≤ z ∧ z < hbmSizes.SLOT_COUNT := by
    intro z hz
    rw [List.eq_of_mem_replicate hz]
    decide
  have hrow : Maintainable hbmSizes { indexCase hbmSizes 8192 with freeHead := 3 } :=
    hready.maintainable (by decide) (by decide)
  obtain ⟨hends, hrun⟩ := maintain_scan hrow List.length_replicate hlast 7 0
  obtain ⟨fuel, row', hok⟩ := hends.mpr hthree
  exact ⟨fuel, row', hok, (hrun fuel).2.2 row' hok⟩

end AsuAscend.HbmIndex
