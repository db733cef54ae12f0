/-
How a fixed number of threads share the indices below a bound.

`gridStride` is the loop `for (i = tid; i < n; i += T)`, `span` the loop
`for (i = b; i < e; ++i)`, and `chunkBegin`/`chunkEnd` the bounds of the contiguous
part of `⌈n / T⌉` indices, clamped to `n`, that a thread gets when the order
matters. Either way every index below `n` is worked on by exactly one thread.

## Either way

With more threads than indices some threads get nothing: their stride starts past the bound, or
their part does. The bounds of the parts follow the source, where both ends are computed before
they are cut, so that a part can start past the bound and end before it starts.
-/
import Mathlib.Data.List.Range
import Mathlib.Tactic.Ring

set_option autoImplicit false

namespace WorkSplit

/-! ## Interleaved -/

/-- The indices that thread `tid` of `T` visits below `n`. -/
def gridStride (tid n T : ℕ) : List ℕ := List.range' tid ((n + T - 1 - tid) / T) T

/-- A thread goes through the positions of its own residue. -/
theorem mem_gridStride {tid n T p : ℕ} (ht : tid < T) :
    p ∈ gridStride tid n T ↔ p < n ∧ p % T = tid := by
  have hT : 0 < T := by omega
  unfold gridStride
  rw [List.mem_range']
  constructor
  · rintro ⟨i, hi, rfl⟩
    have hlt : (i + 1) * T ≤ n + T - 1 - tid := (Nat.le_div_iff_mul_le hT).mp hi
    have hexp : (i + 1) * T = T * i + T := by ring
    refine ⟨by omega, ?_⟩
    rw [Nat.add_mul_mod_self_left, Nat.mod_eq_of_lt ht]
  · rintro ⟨hp, hmod⟩
    have hdiv := Nat.div_add_mod p T
    refine ⟨p / T, ?_, by omega⟩
    apply (Nat.le_div_iff_mul_le hT).mpr
    rw [Nat.succ_mul, Nat.mul_comm]
    omega

/-- Exactly one thread visits an index. -/
theorem gridStride_unique {t u n T p : ℕ} (ht : t < T) (hu : u < T) (hpt : p ∈ gridStride t n T)
    (hpu : p ∈ gridStride u n T) : t = u :=
  ((mem_gridStride ht).mp hpt).2.symm.trans ((mem_gridStride hu).mp hpu).2

theorem gridStride_cover {n T p : ℕ} (hT : 0 < T) (hp : p < n) :
    p ∈ gridStride (p % T) n T :=
  (mem_gridStride (Nat.mod_lt _ hT)).mpr ⟨hp, rfl⟩

/-- No thread comes to a position twice. -/
theorem gridStride_nodup {t n T : ℕ} (hT : 0 < T) : (gridStride t n T).Nodup :=
  List.nodup_range' _ hT

/-! ## Contiguous -/

/-- The indices from `b` up to, but not including, `e`. -/
def span (b e : ℕ) : List ℕ := List.range' b (e - b)

/-- A stretch has the positions from `b` up to `e`. -/
theorem mem_span {b e p : ℕ} : p ∈ span b e ↔ b ≤ p ∧ p < e := by
  unfold span
  rw [List.mem_range'_1]
  omega

theorem span_self (b : ℕ) : span b b = [] := by
  unfold span; rw [Nat.sub_self]; rfl

/-- A stretch that is longer by one position. -/
theorem span_succ {b e : ℕ} (h : b ≤ e) : span b (e + 1) = span b e ++ [e] := by
  unfold span
  rw [Nat.succ_sub h, Nat.succ_eq_add_one, List.range'_1_concat]
  congr 2
  omega

/-- A loop that starts past its end stops where it started. -/
theorem span_stop (b e : ℕ) : span b (b + (e - b)) = span b e := by
  unfold span; rw [Nat.add_sub_cancel_left]

/-- Where a part of `span b e` stops, the next index comes. -/
theorem eq_of_span_split {b e x : ℕ} {pre suf : List ℕ} (h : span b e = pre ++ x :: suf) :
    pre = span b x ∧ b ≤ x ∧ x < e := by
  unfold span at h ⊢
  obtain ⟨n, hn, hpre, hsuf⟩ := List.range'_eq_append_iff.mp h
  rw [Nat.mul_one] at hsuf
  have hx : x ∈ List.range' (b + n) (e - b - n) := by
    rw [← hsuf]; exact List.mem_cons_self
  have hhead : x = b + n := by
    obtain ⟨k, hk⟩ : ∃ k, e - b - n = k + 1 := by
      rw [List.mem_range'_1] at hx
      exact ⟨e - b - n - 1, by omega⟩
    rw [hk, List.range'_succ] at hsuf
    have := (List.cons.inj hsuf).1
    omega
  rw [List.mem_range'_1] at hx
  refine ⟨?_, by omega, by omega⟩
  rw [hpre, hhead, Nat.add_sub_cancel_left]

/-- The `⌈n / T⌉` of a chunked loop. -/
def chunkSize (n T : ℕ) : ℕ := (n + T - 1) / T

def chunkBegin (n T tid : ℕ) : ℕ := tid * chunkSize n T

def chunkEnd (n T tid : ℕ) : ℕ := min (chunkBegin n T tid + chunkSize n T) n

theorem chunkBegin_succ (n T tid : ℕ) :
    chunkBegin n T (tid + 1) = chunkBegin n T tid + chunkSize n T := by
  unfold chunkBegin; ring

/-- The parts reach the bound. -/
theorem le_chunkBegin {n T : ℕ} (hT : 0 < T) : n ≤ chunkBegin n T T := by
  unfold chunkBegin chunkSize
  have hdiv := Nat.div_add_mod (n + T - 1) T
  have hmod := Nat.mod_lt (n + T - 1) hT
  omega

/-- The thread whose part an index belongs to. -/
theorem chunk_div {n T tid p : ℕ} (hp : p ∈ span (chunkBegin n T tid) (chunkEnd n T tid)) :
    p / chunkSize n T = tid := by
  obtain ⟨hb, he⟩ := mem_span.mp hp
  unfold chunkEnd at he
  have hlt : p < chunkBegin n T tid + chunkSize n T := lt_of_lt_of_le he (Nat.min_le_left _ _)
  unfold chunkBegin at hb hlt
  apply Nat.div_eq_of_lt_le hb
  rw [Nat.succ_mul]
  exact hlt

theorem chunk_unique {n T t u p : ℕ} (ht : p ∈ span (chunkBegin n T t) (chunkEnd n T t))
    (hu : p ∈ span (chunkBegin n T u) (chunkEnd n T u)) : t = u :=
  (chunk_div ht).symm.trans (chunk_div hu)

/-- A chunk stays inside the range, also the ragged last one. -/
theorem chunk_lt {n T tid p : ℕ} (hp : p ∈ span (chunkBegin n T tid) (chunkEnd n T tid)) :
    p < n :=
  lt_of_lt_of_le (mem_span.mp hp).2 (Nat.min_le_right _ _)

theorem chunk_cover {n T p : ℕ} (hT : 0 < T) (hp : p < n) :
    ∃ t, t < T ∧ p ∈ span (chunkBegin n T t) (chunkEnd n T t) := by
  have hreach := le_chunkBegin (n := n) hT
  have hpos : 0 < chunkSize n T := by
    by_contra h0
    have : chunkSize n T = 0 := by omega
    rw [chunkBegin, this, Nat.mul_zero] at hreach
    omega
  have hdiv := Nat.div_add_mod p (chunkSize n T)
  have hmod := Nat.mod_lt p hpos
  have hcomm : chunkSize n T * (p / chunkSize n T) = p / chunkSize n T * chunkSize n T :=
    Nat.mul_comm _ _
  refine ⟨p / chunkSize n T, ?_, mem_span.mpr ⟨?_, ?_⟩⟩
  · apply (Nat.div_lt_iff_lt_mul hpos).mpr
    exact lt_of_lt_of_le hp hreach
  · unfold chunkBegin; omega
  · unfold chunkEnd chunkBegin; omega

end WorkSplit
