/-
The query positions that a random update rewrites: `a * t + b` modulo the query length,
for `t` below the number of updates, with an `a` that is coprime to the length.

The kernel and the reference `update_positions` draw the same `a` and `b`
(`pickCoprimeA_eq`), and the positions are distinct (`affine_nodup`). They differ in the
number of updates alone: the kernel multiplies the length by the percentage in 32 bits.

## Where the two differ, and where they do not

* the hashes and the factor: the kernel works on 32-bit words, the reference masks integers;
* the greatest common divisor: a loop of remainders in the kernel, `math.gcd` in the reference;
* the product `a * t`: the kernel makes it in 64 bits, where it does not wrap;
* the number of updates: the kernel multiplies in 32 bits. This is the one product that wraps,
  where length times percentage is `2 ^ 32` or more.

`update_positions_distinct` is about every length below `2 ^ 32` and every seed: the search for a
factor ends, the positions are below the length and no two of them are equal.
-/
import AsuAscend.HbmIndex.ExpectedMaintain
import Mathlib.Data.Nat.ModEq

set_option autoImplicit false

open MachineWords
open AsuAscend.HbmIndex (hash32 expectedHash32 expectedHash32_eq)

namespace AsuAscend.LookupUpdate

/-! ## The kernel -/

def gcdU32 (a : ℕ) : ℕ → ℕ
  | 0 => a
  | b + 1 => gcdU32 (b + 1) (a % (b + 1))
termination_by b => b
decreasing_by exact Nat.mod_lt a (Nat.succ_pos b)

/-- The `while` loop of `PickCoprimeA`; `none` when the fuel runs out. -/
def pickLoop (n : ℕ) : ℕ → ℕ → Option ℕ
  | 0, _ => none
  | fuel + 1, a =>
    if gcdU32 a n ≠ 1 then
      let a := u32 (a + 1 : ℕ)
      pickLoop n fuel (if a ≥ n then 1 else a)
    else some a

def pickCoprimeA (fuel : ℕ) (seed : UInt32) (n : ℕ) : Option ℕ :=
  if n ≤ 1 then some 1
  else
    let a := (hash32 seed).toNat % n
    pickLoop n fuel (if a = 0 then 1 else a)

/-- `updateNum` in `Process`; 0 also where `Process` returns before. -/
def kernelUpdateNum (queryLen updatePercent : ℕ) : ℕ :=
  if queryLen = 0 ∨ updatePercent = 0 then 0
  else
    let updateNum := u32 (queryLen * updatePercent : ℕ) / 100
    if updateNum > queryLen then queryLen else updateNum

/-- The position of turn `t`; the product and the sum are 64-bit. -/
def updatePosition (queryLen a b t : ℕ) : ℕ := u32 (u64 (a * t + b : ℕ) % queryLen : ℕ)

/-- The positions of a request, in the order of the loop. -/
def kernelPositions (fuel queryLen : ℕ) (seed : UInt32) (updatePercent : ℕ) (reqId : ℕ) :
    Option (List ℕ) :=
  let updateNum := kernelUpdateNum queryLen updatePercent
  if updateNum = 0 then some []
  else do
    let reqSeed := seed ^^^ hash32 (UInt32.ofNat reqId)
    let a ← pickCoprimeA fuel (reqSeed ^^^ 0x9e3779b9) queryLen
    let b := (hash32 (reqSeed ^^^ 0x85ebca6b)).toNat % queryLen
    return (List.range updateNum).map fun t => u32 (u64 (a * t + b : ℕ) % queryLen : ℕ)

/-! ## The reference -/

def expectedPickLoop (n : ℕ) : ℕ → ℕ → Option ℕ
  | 0, _ => none
  | fuel + 1, a =>
    if Nat.gcd a n ≠ 1 then
      let a := a + 1
      expectedPickLoop n fuel (if a ≥ n then 1 else a)
    else some a

def expectedPickCoprimeA (fuel seed n : ℕ) : Option ℕ :=
  if n ≤ 1 then some 1
  else
    let a := expectedHash32 seed % n
    expectedPickLoop n fuel (if a = 0 then 1 else a)

def updatePositions (fuel query_len : ℕ) (seed : ℤ) (update_percent req_id : ℕ) :
    Option (List ℕ) :=
  let update_num := query_len * update_percent / 100
  if update_num ≤ 0 then some []
  else do
    let req_seed := u32 seed ^^^ expectedHash32 req_id
    let a ← expectedPickCoprimeA fuel (req_seed ^^^ 0x9E3779B9) query_len
    let b := expectedHash32 (req_seed ^^^ 0x85EBCA6B) % query_len
    return (List.range update_num).map fun t => (a * t + b) % query_len

/-! ## The multiplier -/

/-- The loop computes the greatest common divisor; the remainders go down. -/
theorem gcdU32_eq (a b : ℕ) : gcdU32 a b = Nat.gcd a b := by
  induction a, b using gcdU32.induct with
  | case1 a => rw [gcdU32, Nat.gcd_zero_right]
  | case2 a b ih => rw [gcdU32, ih, Nat.gcd_comm, ← Nat.gcd_rec, Nat.gcd_comm]

section

variable {n : ℕ}

/-- The loop ends at the latest when it comes round to 1. -/
theorem expectedPickLoop_spec {fuel a : ℕ} (h1 : 1 ≤ a) (hn : a < n) (hfuel : n - a < fuel) :
    ∃ a', expectedPickLoop n fuel a = some a' ∧ a' < n ∧ Nat.Coprime a' n := by
  induction fuel generalizing a with
  | zero => omega
  | succ fuel ih =>
      unfold expectedPickLoop
      by_cases hgcd : Nat.gcd a n = 1
      · exact ⟨a, by simp [hgcd], hn, hgcd⟩
      · simp only [ne_eq, hgcd, not_false_eq_true, if_true]
        by_cases hend : a + 1 ≥ n
        · rw [if_pos hend]
          -- the gcd of 1 and `n` is 1
          obtain ⟨fuel, rfl⟩ : ∃ k, fuel = k + 1 := ⟨fuel - 1, by omega⟩
          exact ⟨1, by simp [expectedPickLoop], by omega, Nat.coprime_one_left n⟩
        · rw [if_neg hend]
          exact ih (by omega) (by omega) (by omega)

/-- Below `2 ^ 32` the search of the kernel is that over natural numbers. -/
theorem pickLoop_eq (hn : n < 2 ^ 32) {fuel a : ℕ} (h1 : 1 ≤ a) (ha : a < n) :
    pickLoop n fuel a = expectedPickLoop n fuel a := by
  induction fuel generalizing a with
  | zero => rfl
  | succ fuel ih =>
      unfold pickLoop expectedPickLoop
      rw [gcdU32_eq, u32_natCast (by omega)]
      by_cases hgcd : Nat.gcd a n = 1
      · simp [hgcd]
      · simp only [ne_eq, hgcd, not_false_eq_true, if_true]
        apply ih <;> split_ifs <;> omega

/-- The search comes to a factor that is coprime to `n`: `1` is one, at the latest after going
once around. -/
theorem expectedPickCoprimeA_spec {fuel : ℕ} (hpos : 0 < n) (hfuel : n ≤ fuel) (seed : ℕ) :
    ∃ a, expectedPickCoprimeA fuel seed n = some a ∧ a ≤ n ∧ Nat.Coprime a n := by
  unfold expectedPickCoprimeA
  by_cases hn : n ≤ 1
  · exact ⟨1, if_pos hn, hpos, Nat.coprime_one_left n⟩
  · have hmod := Nat.mod_lt (expectedHash32 seed) hpos
    rw [if_neg hn]
    obtain ⟨a, ha, hlt, hcop⟩ := @expectedPickLoop_spec n fuel
      (if expectedHash32 seed % n = 0 then 1 else expectedHash32 seed % n)
      (by split_ifs <;> omega) (by split_ifs <;> omega) (by split_ifs <;> omega)
    exact ⟨a, ha, hlt.le, hcop⟩

theorem pickCoprimeA_eq (hn : n < 2 ^ 32) (fuel : ℕ) (seed : UInt32) :
    pickCoprimeA fuel seed n = expectedPickCoprimeA fuel seed.toNat n := by
  unfold pickCoprimeA expectedPickCoprimeA
  rw [expectedHash32_eq]
  by_cases h1 : n ≤ 1
  · rw [if_pos h1, if_pos h1]
  · have hmod := Nat.mod_lt (hash32 seed).toNat (show 0 < n by omega)
    rw [if_neg h1, if_neg h1]
    exact pickLoop_eq hn (by split_ifs <;> omega) (by split_ifs <;> omega)

/-- More fuel does not change the multiplier. -/
theorem pickLoop_unique {fuel fuel' a x x' : ℕ} (h : pickLoop n fuel a = some x)
    (h' : pickLoop n fuel' a = some x') : x = x' := by
  induction fuel generalizing fuel' a with
  | zero => cases h
  | succ fuel ih =>
      cases fuel' with
      | zero => cases h'
      | succ fuel' =>
          unfold pickLoop at h h'
          split_ifs at h h' with hgcd
          · exact ih h h'
          · rw [← Option.some.inj h, ← Option.some.inj h']

/-- The fuel does not change what is picked. -/
theorem pickCoprimeA_unique {fuel fuel' x x' : ℕ} {seed : UInt32}
    (h : pickCoprimeA fuel seed n = some x) (h' : pickCoprimeA fuel' seed n = some x') : x = x' := by
  unfold pickCoprimeA at h h'
  split_ifs at h h' with hn
  · rw [← Option.some.inj h, ← Option.some.inj h']
  all_goals exact pickLoop_unique h h'

/-- The multiplier: the search ends, whatever the seed. -/
theorem pickCoprimeA_spec (hpos : 0 < n) (hn : n < 2 ^ 32) (seed : UInt32) :
    ∃ a, (∀ fuel, n ≤ fuel → pickCoprimeA fuel seed n = some a) ∧ Nat.Coprime a n ∧ a ≤ n ∧
      (1 < n → 1 ≤ a ∧ a < n) := by
  obtain ⟨a, ha, hle, hcop⟩ := expectedPickCoprimeA_spec hpos (le_refl n) seed.toNat
  have hpick : pickCoprimeA n seed n = some a := (pickCoprimeA_eq hn n seed).trans ha
  refine ⟨a, fun fuel hfuel => ?_, hcop, hle, fun h1 => ?_⟩
  · -- more fuel finds a multiplier too, and it is the same one
    obtain ⟨a', ha', -, -⟩ := expectedPickCoprimeA_spec hpos hfuel seed.toNat
    have hpick' : pickCoprimeA fuel seed n = some a' := (pickCoprimeA_eq hn fuel seed).trans ha'
    rw [pickCoprimeA_unique hpick hpick']
    exact hpick'
  · -- neither 0 nor `n` is coprime to an `n` above 1
    have h0 : a ≠ 0 := by
      rintro rfl
      rw [Nat.coprime_zero_left] at hcop
      omega
    have hself : a ≠ n := by
      rintro rfl
      rw [Nat.coprime_self] at hcop
      omega
    omega

/-! ## The positions -/

/-- The walk with a coprime step does not come back before it has been everywhere. -/
theorem affine_nodup {a b m : ℕ} (hcop : Nat.Coprime a n) (hm : m ≤ n) :
    ((List.range m).map fun t => (a * t + b) % n).Nodup := by
  refine List.Nodup.map_on (fun t ht t' ht' h => ?_) List.nodup_range
  have hmul : a * t ≡ a * t' [MOD n] := Nat.ModEq.add_right_cancel' b h
  exact (Nat.ModEq.cancel_left_of_coprime hcop.symm hmul).eq_of_lt_of_lt
    ((List.mem_range.mp ht).trans_le hm) ((List.mem_range.mp ht').trans_le hm)

/-- A percentage of the queries is no more than all of them. -/
theorem div_le_of_percent (queryLen : ℕ) {percent : ℕ} (hpercent : percent ≤ 100) :
    queryLen * percent / 100 ≤ queryLen := by
  have := Nat.mul_le_mul_left queryLen hpercent
  omega

/-- The positions of the reference. -/
theorem updatePositions_spec {fuel percent : ℕ} (hfuel : n ≤ fuel) (hpercent : percent ≤ 100)
    (seed : ℤ) (r : ℕ) :
    ∃ ps, updatePositions fuel n seed percent r = some ps ∧ ps.Nodup ∧
      ps.length = n * percent / 100 ∧ ∀ p ∈ ps, p < n := by
  unfold updatePositions
  by_cases hnum : n * percent / 100 ≤ 0
  · refine ⟨[], if_pos hnum, List.nodup_nil, ?_, fun p hp => nomatch hp⟩
    rw [List.length_nil]
    omega
  · have hle := div_le_of_percent n hpercent
    obtain ⟨a, ha, -, hcop⟩ := expectedPickCoprimeA_spec (show 0 < n by omega) hfuel
      ((u32 seed ^^^ expectedHash32 r) ^^^ 0x9E3779B9)
    dsimp only
    rw [if_neg hnum, ha]
    refine ⟨_, rfl, affine_nodup hcop hle, by simp, ?_⟩
    intro p hp
    obtain ⟨t, -, rfl⟩ := List.mem_map.mp hp
    exact Nat.mod_lt _ (by omega)

/-- Neither the product nor the sum of a turn wraps. -/
theorem updatePosition_eq {a b t : ℕ} (hn : n < 2 ^ 32) (ha : a ≤ n) (hb : b < n) (ht : t < n) :
    a * t + b < 2 ^ 64 ∧ updatePosition n a b t = (a * t + b) % n := by
  have hprod : a * t ≤ n * (n - 1) := Nat.mul_le_mul ha (by omega)
  have hsum : n * (n - 1) + n = n * n := by
    rw [← Nat.mul_succ, Nat.succ_eq_add_one, Nat.sub_add_cancel (by omega)]
  have hsq : n * n ≤ (2 ^ 32 - 1) * (2 ^ 32 - 1) := Nat.mul_le_mul (by omega) (by omega)
  have hmod := Nat.mod_lt (a * t + b) (show 0 < n by omega)
  unfold updatePosition
  rw [u64_natCast (by omega), u32_natCast (by omega)]
  exact ⟨by omega, rfl⟩

/-- Multiples of a coprime factor are distinct modulo `n`, shifted or not. -/
theorem updatePosition_nodup {a b m : ℕ} (hn : n < 2 ^ 32) (ha : a ≤ n) (hcop : Nat.Coprime a n)
    (hb : b < n) (hm : m ≤ n) : ((List.range m).map (updatePosition n a b)).Nodup := by
  have heq : (List.range m).map (updatePosition n a b) =
      (List.range m).map fun t => (a * t + b) % n := by
    refine List.map_congr_left fun t ht => ?_
    exact (updatePosition_eq hn ha hb ((List.mem_range.mp ht).trans_le hm)).2
  rw [heq]
  exact affine_nodup hcop hm

end

/-! ## The number of updates -/

/-- Without the wrap, the number is the reference's. -/
theorem kernelUpdateNum_eq {queryLen percent : ℕ} (hpercent : percent ≤ 100)
    (h : queryLen * percent < 2 ^ 32) : kernelUpdateNum queryLen percent = queryLen * percent / 100 := by
  have hle := div_le_of_percent queryLen hpercent
  unfold kernelUpdateNum
  by_cases hzero : queryLen = 0 ∨ percent = 0
  · rw [if_pos hzero]
    rcases hzero with rfl | rfl <;> simp
  · rw [if_neg hzero, u32_natCast h]
    exact if_neg (by omega)

/-- With the wrap, it is too small. -/
theorem kernelUpdateNum_lt {queryLen percent : ℕ} (h : 2 ^ 32 ≤ queryLen * percent) :
    kernelUpdateNum queryLen percent < queryLen * percent / 100 := by
  have hu : u32 (queryLen * percent : ℕ) = queryLen * percent % 2 ^ 32 := by
    unfold u32
    omega
  unfold kernelUpdateNum
  dsimp only
  rw [hu]
  split_ifs <;> omega

/-- The kernel never updates more positions than there are queries, also where its product
wraps. -/
theorem kernelUpdateNum_le (queryLen percent : ℕ) : kernelUpdateNum queryLen percent ≤ queryLen := by
  unfold kernelUpdateNum
  dsimp only
  split_ifs <;> omega

/-- As many positions as the kernel has counted. -/
theorem kernelPositions_length {fuel queryLen percent : ℕ} {seed : UInt32} {r : ℕ} {ps : List ℕ}
    (h : kernelPositions fuel queryLen seed percent r = some ps) :
    ps.length = kernelUpdateNum queryLen percent := by
  unfold kernelPositions at h
  by_cases hnum : kernelUpdateNum queryLen percent = 0
  · simp only [hnum, if_true, Option.some.injEq] at h
    rw [← h, hnum, List.length_nil]
  · simp only [hnum, if_false] at h
    obtain ⟨a, -, h⟩ := Option.bind_eq_some_iff.mp h
    cases h
    simp

theorem kernelPositions_unique {fuel fuel' queryLen percent : ℕ} {seed : UInt32} {r : ℕ}
    {ps ps' : List ℕ} (h : kernelPositions fuel queryLen seed percent r = some ps)
    (h' : kernelPositions fuel' queryLen seed percent r = some ps') : ps = ps' := by
  unfold kernelPositions at h h'
  by_cases hnum : kernelUpdateNum queryLen percent = 0
  · simp only [hnum, if_true, Option.some.injEq] at h h'
    rw [← h, ← h']
  · simp only [hnum, if_false] at h h'
    obtain ⟨a, ha, h⟩ := Option.bind_eq_some_iff.mp h
    obtain ⟨a', ha', h'⟩ := Option.bind_eq_some_iff.mp h'
    obtain rfl := pickCoprimeA_unique ha ha'
    rw [← Option.some.inj h, ← Option.some.inj h']

/-- Up to `2 ^ 32`, the kernel takes the positions of the reference. -/
theorem kernelPositions_eq {fuel queryLen percent r : ℕ} {seed : ℤ} (hfuel : queryLen ≤ fuel)
    (hlen : queryLen < 2 ^ 32) (hpercent : percent ≤ 100) (h : queryLen * percent < 2 ^ 32)
    (hr : r < 2 ^ 32) :
    kernelPositions fuel queryLen (UInt32.ofNat (u32 seed)) percent r =
      updatePositions fuel queryLen seed percent r := by
  have hle := div_le_of_percent queryLen hpercent
  -- the words of the kernel are the numbers of the reference, here and in the hashes
  have hseed : (UInt32.ofNat (u32 seed)).toNat = u32 seed :=
    UInt32.toNat_ofNat_of_lt' (u32_lt seed)
  have hreq : (UInt32.ofNat r).toNat = r := UInt32.toNat_ofNat_of_lt' hr
  have hhash : (hash32 (UInt32.ofNat r)).toNat = expectedHash32 r := by
    rw [← expectedHash32_eq, hreq]
  unfold kernelPositions updatePositions
  rw [kernelUpdateNum_eq hpercent h]
  by_cases hnum : queryLen * percent / 100 = 0
  · simp [hnum]
  -- the factor and the offset are picked from the same hashes
  · obtain ⟨a, ha, hale, -⟩ := expectedPickCoprimeA_spec (show 0 < queryLen by omega) hfuel
      ((u32 seed ^^^ expectedHash32 r) ^^^ 0x9E3779B9)
    have hb : (hash32 (UInt32.ofNat (u32 seed) ^^^ hash32 (UInt32.ofNat r) ^^^ 0x85ebca6b)).toNat =
        expectedHash32 (u32 seed ^^^ expectedHash32 r ^^^ 0x85EBCA6B) := by
      rw [← expectedHash32_eq, UInt32.toNat_xor, UInt32.toNat_xor, hseed, hhash]
      rfl
    have ha' : pickCoprimeA fuel
        (UInt32.ofNat (u32 seed) ^^^ hash32 (UInt32.ofNat r) ^^^ 0x9e3779b9) queryLen = some a := by
      rw [pickCoprimeA_eq hlen, UInt32.toNat_xor, UInt32.toNat_xor, hseed, hhash]
      exact ha
    dsimp only
    rw [if_neg hnum, if_neg (by omega), ha, ha', hb]
    -- and the position of each `t` is the same, as the product has 64 bits
    refine congrArg some (List.map_congr_left fun t ht => ?_)
    have hmod := Nat.mod_lt (expectedHash32 (u32 seed ^^^ expectedHash32 r ^^^ 0x85EBCA6B))
      (show 0 < queryLen by omega)
    exact (updatePosition_eq hlen hale hmod ((List.mem_range.mp ht).trans_le hle)).2

/-! ## Every length and every seed -/

/-- **Distinct positions.** For every query length of 32 bits: the gcd is one, the search for a
multiplier ends with one that is coprime to the length, no position overflows, and the turns of
the loop, however many, take distinct positions. -/
theorem update_positions_distinct {n : ℕ} (hpos : 1 ≤ n) (hn : n < 2 ^ 32) :
    (∀ x y, gcdU32 x y = Nat.gcd x y) ∧
    (∀ seed : UInt32, ∃ a, (∀ fuel, n ≤ fuel → pickCoprimeA fuel seed n = some a) ∧
      Nat.gcd a n = 1 ∧ (1 < n → 1 ≤ a ∧ a < n) ∧
      ∀ b < n, (∀ t < n, a * t + b < 2 ^ 64 ∧ updatePosition n a b t = (a * t + b) % n) ∧
        ∀ m ≤ n, ((List.range m).map (updatePosition n a b)).Nodup) ∧
    ∀ (fuel : ℕ) (seed : UInt32) (percent r : ℕ), n ≤ fuel →
      ∃ ps, kernelPositions fuel n seed percent r = some ps ∧ ps.Nodup ∧ ∀ p ∈ ps, p < n := by
  refine ⟨gcdU32_eq, fun seed => ?_, fun fuel seed percent r hfuel => ?_⟩
  · obtain ⟨a, hpick, hcop, hle, hrange⟩ := pickCoprimeA_spec hpos hn seed
    refine ⟨a, hpick, hcop, hrange, fun b hb => ⟨fun t ht => ?_, fun m hm => ?_⟩⟩
    · exact updatePosition_eq hn hle hb ht
    · exact updatePosition_nodup hn hle hcop hb hm
  · have hnum := kernelUpdateNum_le n percent
    unfold kernelPositions
    by_cases hzero : kernelUpdateNum n percent = 0
    · exact ⟨[], by rw [hzero]; rfl, List.nodup_nil, fun p hp => nomatch hp⟩
    obtain ⟨a, hpick, hcop, hle, -⟩ :=
      pickCoprimeA_spec hpos hn ((seed ^^^ hash32 (UInt32.ofNat r)) ^^^ 0x9e3779b9)
    have hb := Nat.mod_lt (hash32 ((seed ^^^ hash32 (UInt32.ofNat r)) ^^^ 0x85ebca6b)).toNat hpos
    dsimp only
    rw [if_neg hzero, hpick fuel hfuel]
    refine ⟨_, rfl, updatePosition_nodup hn hle hcop hb hnum, fun p hp => ?_⟩
    obtain ⟨t, ht, rfl⟩ := List.mem_map.mp hp
    have hlt := (List.mem_range.mp ht).trans_le hnum
    have hpos' := (updatePosition_eq hn hle hb hlt).2
    unfold updatePosition at hpos'
    rw [hpos']
    exact Nat.mod_lt _ hpos

/-- A length of six, where most multipliers are not coprime. -/
theorem update_positions_distinct_six :
    ∃ a, (∀ fuel, 6 ≤ fuel → pickCoprimeA fuel 0 6 = some a) ∧ Nat.gcd a 6 = 1 ∧
      ((List.range 6).map (updatePosition 6 a 5)).Nodup := by
  obtain ⟨-, hsearch, -⟩ := @update_positions_distinct 6 (by decide) (by decide)
  obtain ⟨a, hpick, hgcd, -, hpositions⟩ := hsearch 0
  exact ⟨a, hpick, hgcd, (hpositions 5 (by decide)).2 6 (by decide)⟩

end AsuAscend.LookupUpdate
