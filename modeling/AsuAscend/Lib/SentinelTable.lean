/-
Integer tables in which `-1` stands for "absent".

`tab xs` reads such a table as a partial map on the naturals: every entry from
`0` up is present, every other entry and every index past the end is absent. The
update of one cell is then the update of the map (`tab_set`), which is what lets
the lemmas of `InverseTables` speak about lists of machine integers.

## Out of range

`read` gives `-1` past the end, so that a table can be read anywhere, and a length is only asked for
where something is written. Any other negative number means the same to `tab` as the sentinel does;
that a table has none of these is `Sentinel`.
-/
import AsuAscend.Lib.InverseTables
import Mathlib.Data.List.GetD

set_option autoImplicit false

open Function (update)
open InverseTables

namespace SentinelTable

/-! ## Cells -/

/-- A cell's value as an optional index. -/
def decode (z : ℤ) : Option ℕ := if 0 ≤ z then some z.toNat else none

/-- Cell `i`, `-1` past the end. -/
def read (xs : List ℤ) (i : ℕ) : ℤ := xs.getD i (-1)

/-- The table as a partial map. -/
def tab (xs : List ℤ) (i : ℕ) : Option ℕ := decode (read xs i)

/-- Every cell is `-1` or an index. -/
def Sentinel (xs : List ℤ) : Prop := ∀ z ∈ xs, -1 ≤ z

@[simp] theorem decode_natCast (n : ℕ) : decode (n : ℤ) = some n := by
  simp [decode]

/-- `-1` stands for no entry. -/
@[simp] theorem decode_neg_one : decode (-1) = none := by decide

/-- An entry that stands for a number is that number. -/
theorem decode_eq_some {z : ℤ} {n : ℕ} : decode z = some n ↔ z = n := by
  unfold decode
  split_ifs with h
  · rw [Option.some.injEq]; omega
  · constructor
    · intro hn; cases hn
    · intro hz; omega

/-- And one that stands for nothing is negative. -/
theorem decode_eq_none {z : ℤ} : decode z = none ↔ z < 0 := by
  unfold decode
  split_ifs with h
  · constructor
    · intro hn; cases hn
    · intro hz; omega
  · simp only [true_iff]; omega

theorem read_of_lt {xs : List ℤ} {i : ℕ} (h : i < xs.length) : read xs i = xs[i] :=
  List.getD_eq_getElem _ _ h

/-- A read past the end finds no entry. -/
theorem read_of_ge {xs : List ℤ} {i : ℕ} (h : xs.length ≤ i) : read xs i = -1 :=
  List.getD_eq_default _ _ h

theorem read_set {xs : List ℤ} {i : ℕ} (h : i < xs.length) (v : ℤ) (k : ℕ) :
    read (xs.set i v) k = if k = i then v else read xs k := by
  unfold read
  rw [List.getD_eq_getElem?_getD, List.getD_eq_getElem?_getD, List.getElem?_set]
  by_cases hk : k = i
  · subst hk; simp [h]
  · rw [if_neg hk, if_neg (fun heq => hk heq.symm)]

/-- What is read inside the table is in it. -/
theorem read_mem {xs : List ℤ} {i : ℕ} (h : i < xs.length) : read xs i ∈ xs := by
  rw [read_of_lt h]; exact List.getElem_mem h

/-- And all that is in it can be read. -/
theorem mem_iff_read {xs : List ℤ} {z : ℤ} : z ∈ xs ↔ ∃ i < xs.length, read xs i = z := by
  constructor
  · intro hz
    obtain ⟨i, hi, rfl⟩ := List.mem_iff_getElem.mp hz
    exact ⟨i, hi, read_of_lt hi⟩
  · rintro ⟨i, hi, rfl⟩
    exact read_mem hi

/-! ## The partial map -/

/-- The table as a partial function, at an index with an entry. -/
theorem tab_eq_some {xs : List ℤ} {i j : ℕ} : tab xs i = some j ↔ read xs i = j :=
  decode_eq_some

/-- And at one without. -/
theorem tab_eq_none {xs : List ℤ} {i : ℕ} : tab xs i = none ↔ read xs i < 0 :=
  decode_eq_none

/-- A present entry lies inside the table. -/
theorem lt_of_tab_eq_some {xs : List ℤ} {i j : ℕ} (h : tab xs i = some j) : i < xs.length := by
  by_contra hge
  rw [tab_eq_some, read_of_ge (by omega)] at h
  omega

/-- A store changes one entry of the partial function. -/
theorem tab_set {xs : List ℤ} {i : ℕ} (h : i < xs.length) (v : ℤ) :
    tab (xs.set i v) = update (tab xs) i (decode v) := by
  funext k
  unfold tab
  rw [read_set h]
  by_cases hk : k = i
  · subst hk; rw [if_pos rfl, Function.update_self]
  · rw [if_neg hk, Function.update_of_ne hk]

/-- No entry is below `-1`, and neither is what is read past the end. -/
theorem Sentinel.read {xs : List ℤ} (h : Sentinel xs) (i : ℕ) : -1 ≤ read xs i := by
  by_cases hi : i < xs.length
  · exact h _ (read_mem hi)
  · rw [read_of_ge (by omega)]

/-- A store of such an entry keeps the table so. -/
theorem Sentinel.set {xs : List ℤ} (h : Sentinel xs) (i : ℕ) {v : ℤ} (hv : -1 ≤ v) :
    Sentinel (xs.set i v) := by
  intro z hz
  rcases List.mem_or_eq_of_mem_set hz with hm | rfl
  · exact h z hm
  · exact hv

/-- A cell that is not present holds exactly `-1`. -/
theorem Sentinel.read_eq_neg_one {xs : List ℤ} (h : Sentinel xs) {i : ℕ} (hn : tab xs i = none) :
    SentinelTable.read xs i = -1 := by
  have h1 := h.read i
  have h2 := tab_eq_none.mp hn
  omega

/-- Entries that are the same present entry, or both absent, hold the same number. -/
theorem read_eq_of_tab_eq {xs ys : List ℤ} (hx : Sentinel xs) (hy : Sentinel ys) {i k : ℕ}
    (h : tab xs i = tab ys k) : read xs i = read ys k := by
  cases ht : tab xs i with
  | none =>
      rw [hx.read_eq_neg_one ht, hy.read_eq_neg_one (by rw [← h]; exact ht)]
  | some j =>
      rw [tab_eq_some.mp ht, tab_eq_some.mp (by rw [← h]; exact ht)]

/-- Tables of one length that agree at every index. -/
theorem ext_of_read {xs ys : List ℤ} (hlen : xs.length = ys.length)
    (h : ∀ i < xs.length, read xs i = read ys i) : xs = ys := by
  refine List.ext_getElem hlen fun i h1 h2 => ?_
  rw [← read_of_lt h1, ← read_of_lt h2, h i h1]

/-- Tables with the same length, the same partial map and only sentinels besides
are the same table. -/
theorem ext_of_tab {xs ys : List ℤ} (hx : Sentinel xs) (hy : Sentinel ys)
    (hlen : xs.length = ys.length) (h : ∀ i, tab xs i = tab ys i) : xs = ys :=
  ext_of_read hlen fun i _ => read_eq_of_tab_eq hx hy (h i)

/-! ## Mutually inverse tables -/

/-- Each table sends an index to `-1` or to an index of the other one that sends
it back. -/
structure MutuallyInverse (xs ys : List ℤ) : Prop where
  fwd : ∀ i < xs.length, read xs i = -1 ∨ ∃ j < ys.length, read xs i = j ∧ read ys j = i
  bwd : ∀ j < ys.length, read ys j = -1 ∨ ∃ i < xs.length, read ys j = i ∧ read xs i = j

instance (xs ys : List ℤ) : Decidable (MutuallyInverse xs ys) :=
  decidable_of_iff
    ((∀ i < xs.length, read xs i = -1 ∨ ∃ j < ys.length, read xs i = j ∧ read ys j = i) ∧
      ∀ j < ys.length, read ys j = -1 ∨ ∃ i < xs.length, read ys j = i ∧ read xs i = j)
    ⟨fun h => ⟨h.1, h.2⟩, fun h => ⟨h.fwd, h.bwd⟩⟩

/-- The entries of inverse tables are numbers or `-1`. -/
theorem MutuallyInverse.sentinel_fwd {xs ys : List ℤ} (h : MutuallyInverse xs ys) :
    Sentinel xs := by
  intro z hz
  obtain ⟨i, hi, rfl⟩ := mem_iff_read.mp hz
  rcases h.fwd i hi with h1 | ⟨j, _, h1, _⟩ <;> omega

theorem MutuallyInverse.symm {xs ys : List ℤ} (h : MutuallyInverse xs ys) :
    MutuallyInverse ys xs := ⟨h.bwd, h.fwd⟩

theorem MutuallyInverse.inverse {xs ys : List ℤ} (h : MutuallyInverse xs ys) :
    Inverse (tab xs) (tab ys) := by
  have key : ∀ {us vs : List ℤ}, MutuallyInverse us vs → ∀ i j, tab us i = some j →
      tab vs j = some i := by
    intro us vs huv i j hij
    have hi := lt_of_tab_eq_some hij
    rw [tab_eq_some] at hij ⊢
    rcases huv.fwd i hi with h1 | ⟨j', _, h1, h2⟩
    · omega
    · have hj : j = j' := by omega
      rw [hj]; exact h2
  exact fun i j => ⟨key h i j, key h.symm j i⟩

/-- Inverse partial functions make inverse tables, if these have no other negative entries. -/
theorem MutuallyInverse.of_inverse {xs ys : List ℤ} (hx : Sentinel xs) (hy : Sentinel ys)
    (h : Inverse (tab xs) (tab ys)) : MutuallyInverse xs ys := by
  have key : ∀ {us vs : List ℤ}, Sentinel us → Inverse (tab us) (tab vs) → ∀ i < us.length,
      read us i = -1 ∨ ∃ j < vs.length, read us i = j ∧ read vs j = i := by
    intro us vs hu huv i _
    cases ht : tab us i with
    | none => exact Or.inl (hu.read_eq_neg_one ht)
    | some j =>
        have hji := (huv i j).mp ht
        exact Or.inr ⟨j, lt_of_tab_eq_some hji, tab_eq_some.mp ht, tab_eq_some.mp hji⟩
  exact ⟨key hx h, key hy h.symm⟩

/-- Putting an absent name into a free slot. -/
theorem MutuallyInverse.put {xs ys : List ℤ} (h : MutuallyInverse xs ys) {i j : ℕ}
    (hi : i < xs.length) (hj : j < ys.length) (hx : tab xs i = none) (hy : tab ys j = none) :
    MutuallyInverse (xs.set i j) (ys.set j i) := by
  apply MutuallyInverse.of_inverse (h.sentinel_fwd.set i (by omega))
    (h.symm.sentinel_fwd.set j (by omega))
  have hinv := h.inverse.install j hx
  simp only [InverseTables.install, hy, evict] at hinv
  rw [tab_set hi, tab_set hj, decode_natCast, decode_natCast]
  exact hinv

/-- Taking a name out of its slot. -/
theorem MutuallyInverse.drop {xs ys : List ℤ} (h : MutuallyInverse xs ys) {i j : ℕ}
    (hj : j < ys.length) (hij : tab ys j = some i) :
    MutuallyInverse (xs.set i (-1)) (ys.set j (-1)) := by
  apply MutuallyInverse.of_inverse (h.sentinel_fwd.set i (by omega))
    (h.symm.sentinel_fwd.set j (by omega))
  have hi := lt_of_tab_eq_some ((h.inverse i j).mpr hij)
  have hinv := h.inverse.remove j
  simp only [hij, evict] at hinv
  rw [tab_set hi, tab_set hj, decode_neg_one]
  exact hinv

/-! ## The present entries -/

/-- The indices of the entries that are present. -/
def present (xs : List ℤ) : Finset ℕ := (Finset.range xs.length).filter fun i => read xs i ≠ -1

/-- An index is present if there is an entry at it. -/
theorem mem_present {xs : List ℤ} {i : ℕ} : i ∈ present xs ↔ read xs i ≠ -1 := by
  unfold present
  rw [Finset.mem_filter, Finset.mem_range, and_iff_right_iff_imp]
  intro h
  by_contra hge
  exact h (read_of_ge (by omega))

theorem tab_ne_none {xs : List ℤ} (h : Sentinel xs) {i : ℕ} : tab xs i ≠ none ↔ read xs i ≠ -1 := by
  have := h.read i
  rw [Ne, tab_eq_none]
  omega

/-- A store of an entry adds its index. -/
theorem present_set {xs : List ℤ} {i : ℕ} (h : i < xs.length) {v : ℤ} (hv : v ≠ -1) :
    present (xs.set i v) = insert i (present xs) := by
  ext k
  rw [Finset.mem_insert, mem_present, mem_present, read_set h]
  split_ifs with hk
  · simp [hk, hv]
  · simp [hk]

/-- A store of `-1` takes it away. -/
theorem present_clear {xs : List ℤ} {i : ℕ} (h : i < xs.length) :
    present (xs.set i (-1)) = (present xs).erase i := by
  ext k
  rw [Finset.mem_erase, mem_present, mem_present, read_set h]
  split_ifs with hk
  · simp [hk]
  · simp [hk]

/-- Inverse tables have as many entries present on one side as on the other. -/
theorem MutuallyInverse.card_present {xs ys : List ℤ} (h : MutuallyInverse xs ys) :
    (present xs).card = (present ys).card := by
  have hcard := h.inverse.card_eq (present xs) (present ys)
    (fun i j hij => mem_present.mpr ((tab_ne_none h.sentinel_fwd).mp (by rw [hij]; simp)))
    (fun i j hij => mem_present.mpr ((tab_ne_none h.symm.sentinel_fwd).mp (by
      rw [(h.inverse i j).mp hij]; simp)))
  have hall : ∀ {zs : List ℤ}, Sentinel zs →
      (present zs).filter (fun i => (tab zs i).isSome) = present zs := by
    intro zs hz
    apply Finset.filter_true_of_mem
    intro i hi
    exact Option.isSome_iff_ne_none.mpr ((tab_ne_none hz).mpr (mem_present.mp hi))
  rwa [hall h.sentinel_fwd, hall h.symm.sentinel_fwd] at hcard

/-! ## Writing one pair -/

/-- What a program does to install name `i` in slot `j`: clear the cell of the
slot's former name, then write both cells. -/
def installCells (p : List ℤ × List ℤ) (j i : ℕ) : List ℤ × List ℤ :=
  let old := read p.2 j
  let xs := if 0 ≤ old then p.1.set old.toNat (-1) else p.1
  (xs.set i j, p.2.set j i)

theorem installCells_length (p : List ℤ × List ℤ) (j i : ℕ) :
    (installCells p j i).1.length = p.1.length ∧ (installCells p j i).2.length = p.2.length := by
  unfold installCells
  refine ⟨?_, by simp⟩
  dsimp only
  split_ifs <;> simp

/-- What installing stores are entries or `-1`. -/
theorem installCells_sentinel {p : List ℤ × List ℤ} (hx : Sentinel p.1) (hy : Sentinel p.2)
    (j i : ℕ) : Sentinel (installCells p j i).1 ∧ Sentinel (installCells p j i).2 := by
  unfold installCells
  refine ⟨?_, hy.set _ (by omega)⟩
  dsimp only
  split_ifs
  · exact (hx.set _ (by omega)).set _ (by omega)
  · exact hx.set _ (by omega)

/-- The cell writes are `InverseTables.install` on the partial maps. -/
theorem installCells_tab {p : List ℤ × List ℤ} {j i : ℕ}
    (hinv : Inverse (tab p.1) (tab p.2)) (hi : i < p.1.length) (hj : j < p.2.length) :
    (tab (installCells p j i).1, tab (installCells p j i).2) = install (tab p.1, tab p.2) j i := by
  unfold installCells install
  dsimp only
  rw [tab_set hj, decode_natCast]
  split_ifs with hold
  · have htab : tab p.2 j = some (read p.2 j).toNat := by rw [tab_eq_some]; omega
    have hlt := lt_of_tab_eq_some ((hinv _ _).mpr htab)
    rw [tab_set (by simpa using hi), tab_set hlt, htab, decode_natCast, decode_neg_one]
    rfl
  · have htab : tab p.2 j = none := by rw [tab_eq_none]; omega
    rw [tab_set hi, htab, decode_natCast]
    rfl

end SentinelTable
