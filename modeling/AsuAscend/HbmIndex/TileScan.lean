/-
The vector pass of the lookup.

Lane arithmetic first: the clamp keeps the gather inside the tile for every
`int32_t` query, in range or not, and the mask is set exactly on the queries that
the tile holds (`tileOffsets_eq`). Each in-range query then falls into one tile, so
the whole pass reads the index table at every query (`scanTiles_spec`).

## Out of range on purpose

Queries that the tile does not hold get an address inside it all the same: the offset is clamped by
`relu` and a minimum, and the lane is masked out afterwards. With wrapping arithmetic the difference
of two `int32_t`s can come out anywhere, and the clamp has to work for all of them; `tiles_select`
states it for every 32-bit query, and that the mask is set for exactly one tile of the row.
-/
import AsuAscend.HbmIndex.Lookup
import AsuAscend.Lib.Folds
import AsuAscend.Lib.SentinelTable

set_option autoImplicit false

open MachineWords WorkSplit SentinelTable

namespace AsuAscend.HbmIndex

/-! ## Accesses -/

theorem getValue_ok {xs : List ℤ} {i : ℕ} (h : i < xs.length) : getValue xs i = .ok (read xs i) := by
  unfold getValue; rw [dif_pos h, read_of_lt h]

theorem setValue_ok {xs : List ℤ} {i : ℕ} (h : i < xs.length) (v : ℤ) :
    setValue xs i v = .ok (xs.set i v) := if_pos h

theorem setValue_length {xs ys : List ℤ} {i : ℕ} {v : ℤ} (h : setValue xs i v = .ok ys) :
    ys.length = xs.length := by
  unfold setValue at h
  split_ifs at h with hi
  cases h
  exact List.length_set

/-- A tile that lies in the row is copied whole. -/
theorem dataCopy_ok {xs : List ℤ} {base len : ℕ} (h : base + len ≤ xs.length) :
    dataCopy xs base len = .ok ((xs.drop base).take len) := if_pos h

/-- An entry of the tile, in the row. -/
theorem read_window {xs : List ℤ} {base len k : ℕ} (hk : k < len) :
    read ((xs.drop base).take len) k = read xs (base + k) := by
  unfold SentinelTable.read
  rw [List.getD_eq_getElem?_getD, List.getD_eq_getElem?_getD, List.getElem?_take, if_pos hk,
    List.getElem?_drop]

/-- The tile has its length, the last one too. -/
theorem window_length {xs : List ℤ} {base len : ℕ} (h : base + len ≤ xs.length) :
    ((xs.drop base).take len).length = len := by
  rw [List.length_take, List.length_drop]; omega

/-! ## One lane -/

section Lane

variable {d : Sizes} {b : ℕ} {q : ℤ}

/-- The tile element that a query's lane gathers. -/
def lane (d : Sizes) (b : ℕ) (q : ℤ) : ℤ := min (max (i32 (q - b)) 0) (d.INDEX_TILE_LEN - 1)

/-- Whatever the query, the lane's address lies in the tile: the compare-and-select keeps it
there. -/
theorem lane_range (hd : d.Fits) (b : ℕ) (q : ℤ) : 0 ≤ lane d b q ∧ lane d b q < d.INDEX_TILE_LEN := by
  have hpos := hd.tile_pos
  unfold lane
  omega

/-- A query of the tile is gathered at its own place. -/
theorem lane_of_mem (hb : b + d.INDEX_TILE_LEN ≤ 2 ^ 31) (hq : (b : ℤ) ≤ q)
    (hq' : q < b + d.INDEX_TILE_LEN) : lane d b q = q - b := by
  unfold lane
  rw [i32_of_lt (by omega) (by omega)]
  omega

/-- The difference that the mask compares with zero. A query far below the tile can
wrap around, but not into the tile. -/
theorem lane_mask (hd : d.Fits) (hb : b + d.INDEX_TILE_LEN ≤ 2 ^ 31) (hq : -2 ^ 31 ≤ q)
    (hq' : q < 2 ^ 31) :
    i32 (q - b) - lane d b q = 0 ↔ (b : ℤ) ≤ q ∧ q < b + d.INDEX_TILE_LEN := by
  have hpos := hd.tile_pos
  constructor
  · intro h
    have hrange := lane_range hd b q
    have hwrap : i32 (q - b) = q - b ∨ i32 (q - b) = q - b + 2 ^ 32 := by
      unfold i32
      rw [Int.bmod_def]
      split_ifs <;> omega
    rcases hwrap with hw | hw <;> omega
  · intro ⟨h1, h2⟩
    rw [lane_of_mem hb h1 h2, i32_of_lt (by omega) (by omega)]
    omega

/-- The clamp, as the kernel computes it: subtract what exceeds the last element. -/
theorem lane_clamp (hd : d.Fits) {δ : ℤ} (h0 : -2 ^ 31 ≤ δ) (h1 : δ < 2 ^ 31) :
    i32 (max δ 0 + i32 (max (i32 (max δ 0 + -(d.INDEX_TILE_LEN - 1))) 0 * -1)) =
      min (max δ 0) (d.INDEX_TILE_LEN - 1) := by
  have hpos := hd.tile_pos
  have hbytes := hd.tile_bytes
  have hover : i32 (max δ 0 + -(d.INDEX_TILE_LEN - 1)) = max δ 0 - (d.INDEX_TILE_LEN - 1) := by
    rw [i32_of_mem (by omega) (by omega)]
    omega
  rw [hover, i32_of_mem (z := max (max δ 0 - (d.INDEX_TILE_LEN - 1)) 0 * -1) (by omega) (by omega),
    i32_of_mem (by omega) (by omega)]
  omega

end Lane

/-! ## All lanes -/

section Tile

variable {d : Sizes} {b : ℕ}

/-- A tile that starts inside the index row ends inside it. -/
theorem tile_le (hd : d.Fits) (hlt : b < d.INDEX_SIZE) (hdvd : d.INDEX_TILE_LEN ∣ b) :
    b + d.INDEX_TILE_LEN ≤ d.INDEX_SIZE := by
  obtain ⟨k, hk⟩ := hd.tile_dvd
  obtain ⟨j, rfl⟩ := hdvd
  rw [hk] at hlt ⊢
  rw [← Nat.mul_succ]
  exact Nat.mul_le_mul_left _ (lt_of_mul_lt_mul_left hlt (Nat.zero_le _))

/-- The tile of an in-range query. -/
theorem exists_unique_tile (hd : d.Fits) {q : ℤ} (h0 : 0 ≤ q) (h1 : q < d.INDEX_SIZE) :
    ∃! b, (b < d.INDEX_SIZE ∧ d.INDEX_TILE_LEN ∣ b) ∧ (b : ℤ) ≤ q ∧ q < b + d.INDEX_TILE_LEN := by
  have hpos := hd.tile_pos
  have hdiv := Nat.div_add_mod q.toNat d.INDEX_TILE_LEN
  have hmod := Nat.mod_lt q.toNat hpos
  refine ⟨d.INDEX_TILE_LEN * (q.toNat / d.INDEX_TILE_LEN),
    ⟨⟨by omega, Nat.dvd_mul_right _ _⟩, by omega, by omega⟩, ?_⟩
  rintro _ ⟨⟨-, j, rfl⟩, hle, hlt⟩
  -- the tile number is the quotient
  rw [Nat.div_eq_of_lt_le (k := j)]
  · rw [Nat.mul_comm]
    omega
  · rw [Nat.succ_mul, Nat.mul_comm]
    omega

/-- What the vector instructions before the gather compute. -/
theorem tileOffsets_eq (hd : d.Fits) (hb : b + d.INDEX_TILE_LEN ≤ 2 ^ 31) (query : List ℤ)
    (hquery : ∀ q ∈ query, -2 ^ 31 ≤ q ∧ q < 2 ^ 31) :
    tileOffsets d query b = (query.map fun q => 4 * lane d b q,
      query.map fun q => decide ((b : ℤ) ≤ q ∧ q < b + d.INDEX_TILE_LEN)) := by
  have hpos := hd.tile_pos
  have hbytes := hd.tile_bytes
  have hT : i32 (d.INDEX_TILE_LEN - 1) = d.INDEX_TILE_LEN - 1 := i32_of_lt (by omega) (by omega)
  have hB : i32 (b : ℤ) = b := i32_of_lt (by omega) (by omega)
  unfold tileOffsets
  simp only [adds, muls, relu, add, compareScalar, List.map_map, List.zipWith_map,
    List.zipWith_self, hT, hB]
  refine Prod.ext (List.map_congr_left fun q hq => ?_) (List.map_congr_left fun q hq => ?_)
  all_goals
    obtain ⟨h0, h1⟩ := hquery q hq
    obtain ⟨hδ0, hδ1⟩ := i32_range (q - b)
    obtain ⟨hl0, hl1⟩ := lane_range hd b q
    -- one `Relu` clamps the offset from below, and what another finds above the tile is taken off
    have hlane : i32 (max (i32 (q - b)) 0 +
        i32 (max (i32 (max (i32 (q - b)) 0 + -(d.INDEX_TILE_LEN - 1))) 0 * -1)) = lane d b q :=
      lane_clamp hd hδ0 hδ1
    simp only [Function.comp_apply, ← sub_eq_add_neg (q : ℤ)]
    rw [hlane]
  · rw [i32_of_lt (by omega) (by omega), mul_comm]
  · have hdiff : i32 (i32 (lane d b q * -1) + i32 (q - b)) = i32 (q - b) - lane d b q := by
      have hle : i32 (q - b) < 0 → lane d b q = 0 := by
        intro hneg
        unfold lane
        omega
      rw [i32_of_mem (z := lane d b q * -1) (by omega) (by omega), i32_of_mem (by omega) (by omega)]
      ring
    rw [hdiff, Bool.eq_iff_iff, beq_iff_eq, decide_eq_true_iff]
    exact lane_mask hd hb h0 h1

/-- The gather stays inside a tile, whatever is queried, and finds the queries of the tile at
their own places. -/
theorem gather_tile (hd : d.Fits) (hb : b + d.INDEX_TILE_LEN ≤ 2 ^ 31) {query : List ℤ}
    (hquery : ∀ q ∈ query, -2 ^ 31 ≤ q ∧ q < 2 ^ 31) {tile : List ℤ}
    (htile : tile.length = d.INDEX_TILE_LEN) :
    gather tile (tileOffsets d query b).1 = .ok (query.map fun q => read tile (lane d b q).toNat) := by
  have hbytes := hd.tile_bytes
  have hplace : ∀ q, u32 (4 * lane d b q) / 4 = (lane d b q).toNat := by
    intro q
    obtain ⟨h0, h1⟩ := lane_range hd b q
    rw [u32_of_nonneg (by omega) (by omega)]
    omega
  rw [tileOffsets_eq hd hb query hquery]
  unfold gather
  rw [Folds.mapM_ok (g := fun o => read tile (u32 o / 4))]
  · rw [List.map_map]
    refine congrArg Except.ok (List.map_congr_left fun q _ => ?_)
    rw [Function.comp_apply, hplace]
  · intro o ho
    obtain ⟨q, -, rfl⟩ := List.mem_map.mp ho
    obtain ⟨h0, h1⟩ := lane_range hd b q
    exact getValue_ok (by rw [hplace]; omega)

/-- The gathered elements of one tile, placed where the mask is set. -/
theorem scanTile_spec (hd : d.Fits) {index : List ℤ} (hindex : index.length = d.INDEX_SIZE)
    (hb : b + d.INDEX_TILE_LEN ≤ d.INDEX_SIZE) {query : List ℤ}
    (hquery : ∀ q ∈ query, 0 ≤ q ∧ q < d.INDEX_SIZE) (g : ℤ → ℤ) :
    scanTile d index query (query.map g) b = .ok (query.map fun q =>
      if (b : ℤ) ≤ q ∧ q < b + d.INDEX_TILE_LEN then read index q.toNat else g q) := by
  have hi32 := hd.index_i32
  have hwin : b + d.INDEX_TILE_LEN ≤ index.length := by omega
  have hquery32 : ∀ q ∈ query, -2 ^ 31 ≤ q ∧ q < 2 ^ 31 := by
    intro q hq
    have := hquery q hq
    omega
  have hb32 : b + d.INDEX_TILE_LEN ≤ 2 ^ 31 := by omega
  have hgather := gather_tile hd hb32 hquery32 (window_length hwin)
  unfold scanTile
  rw [dataCopy_ok hwin]
  simp only [bind, Except.bind, pure, Except.pure, hgather]
  rw [tileOffsets_eq hd hb32 query hquery32]
  simp only [select, List.zip_map', List.zipWith_map, List.zipWith_self]
  refine congrArg Except.ok (List.map_congr_left fun q hq => ?_)
  by_cases hmem : (b : ℤ) ≤ q ∧ q < b + d.INDEX_TILE_LEN
  · rw [if_pos hmem, if_pos (decide_eq_true hmem), lane_of_mem (by omega) hmem.1 hmem.2,
      read_window (by omega)]
    congr 1
    omega
  · rw [if_neg hmem, if_neg (by simpa using hmem)]

/-- **The vector pass** reads the index row, as it was before the serial pass, at
every query. -/
theorem scanTiles_spec (hd : d.Fits) {index : List ℤ} (hindex : index.length = d.INDEX_SIZE)
    {query : List ℤ} (hquery : ∀ q ∈ query, 0 ≤ q ∧ q < d.INDEX_SIZE) :
    (gridStride 0 d.INDEX_SIZE d.INDEX_TILE_LEN).foldlM (scanTile d index query)
      (query.map fun _ => NOT_FOUND) = .ok (query.map fun q => read index q.toNat) := by
  have hpos := hd.tile_pos
  -- after the tiles `pre`, the queries that one of them holds have their entry
  obtain ⟨out, hout, hI⟩ := Folds.foldlM_prefix (f := scanTile d index query)
    (fun pre out => out = query.map fun q =>
      if ∃ b ∈ pre, (b : ℤ) ≤ q ∧ q < b + d.INDEX_TILE_LEN then read index q.toNat else NOT_FOUND)
    (gridStride 0 d.INDEX_SIZE d.INDEX_TILE_LEN) (s := query.map fun _ => NOT_FOUND)
    (List.map_congr_left fun q _ => (if_neg (by simp)).symm) (by
      intro pre b suf out hsplit hI
      have hb : b ∈ gridStride 0 d.INDEX_SIZE d.INDEX_TILE_LEN := by rw [hsplit]; simp
      obtain ⟨hlt, hmod⟩ := (mem_gridStride hpos).mp hb
      have hle := tile_le hd hlt (Nat.dvd_of_mod_eq_zero hmod)
      refine ⟨_, by rw [hI]; exact scanTile_spec hd hindex hle hquery _, ?_⟩
      refine List.map_congr_left fun q _ => ?_
      by_cases hq : (b : ℤ) ≤ q ∧ q < b + d.INDEX_TILE_LEN
      · rw [if_pos hq, if_pos ⟨b, by simp, hq⟩]
      · rw [if_neg hq]
        congr 1
        simp only [List.mem_append, List.mem_singleton, eq_iff_iff]
        constructor
        · rintro ⟨b', hb', h⟩
          exact ⟨b', Or.inl hb', h⟩
        · rintro ⟨b', hb' | rfl, h⟩
          · exact ⟨b', hb', h⟩
          · exact absurd h hq)
  rw [hout, hI]
  refine congrArg Except.ok (List.map_congr_left fun q hq => ?_)
  -- the tile of an in-range query
  obtain ⟨h0, h1⟩ := hquery q hq
  obtain ⟨b, ⟨⟨hlt, hdvd⟩, hmem⟩, -⟩ := exists_unique_tile hd h0 h1
  exact if_pos ⟨b, (mem_gridStride hpos).mpr ⟨hlt, Nat.mod_eq_zero_of_dvd hdvd⟩, hmem⟩

/-! ## Every `int32_t` query -/

/-- **The clamp and the mask** of a lane. For every `int32_t` query and every tile: the byte offset
is four times a place of the tile, the gather finds something there, the mask is set exactly for
the queries of the tile, and the place is then the query's own. So an in-range query is selected
by one tile, and another by none. -/
theorem tiles_select (hd : d.Fits) {query : List ℤ}
    (hquery : ∀ q ∈ query, -2 ^ 31 ≤ q ∧ q < 2 ^ 31) {i : ℕ} {q : ℤ} (hq : query[i]? = some q) :
    (∀ b, b < d.INDEX_SIZE → d.INDEX_TILE_LEN ∣ b →
      ∃ (k : ℕ) (selected : Bool), k < d.INDEX_TILE_LEN ∧
        (tileOffsets d query b).1[i]? = some (4 * k : ℤ) ∧
        (tileOffsets d query b).2[i]? = some selected ∧
        (selected = true ↔ (b : ℤ) ≤ q ∧ q < b + d.INDEX_TILE_LEN) ∧
        (selected = true → (k : ℤ) = q - b) ∧
        ∀ tile : List ℤ, tile.length = d.INDEX_TILE_LEN →
          ∃ found, gather tile (tileOffsets d query b).1 = .ok found ∧ found[i]? = tile[k]?) ∧
    (0 ≤ q ∧ q < d.INDEX_SIZE →
      ∃! b, (b < d.INDEX_SIZE ∧ d.INDEX_TILE_LEN ∣ b) ∧ (tileOffsets d query b).2[i]? = some true) ∧
    (¬ (0 ≤ q ∧ q < d.INDEX_SIZE) →
      ∀ b, b < d.INDEX_SIZE → d.INDEX_TILE_LEN ∣ b → (tileOffsets d query b).2[i]? = some false) := by
  have hi32 := hd.index_i32
  -- the mask of a tile is set exactly for the tokens that it holds
  have hmask : ∀ b, b < d.INDEX_SIZE → d.INDEX_TILE_LEN ∣ b →
      (tileOffsets d query b).2[i]? = some (decide ((b : ℤ) ≤ q ∧ q < b + d.INDEX_TILE_LEN)) := by
    intro b hlt hdvd
    have hle := tile_le hd hlt hdvd
    rw [tileOffsets_eq hd (by omega) query hquery, List.getElem?_map, hq]
    rfl
  -- each tile, then the one that selects the query, then queries that no tile selects
  refine ⟨fun b hlt hdvd => ?_, fun hrange => ?_, fun hrange b hlt hdvd => ?_⟩
  · have hle := tile_le hd hlt hdvd
    obtain ⟨h0, h1⟩ := lane_range hd b q
    refine ⟨(lane d b q).toNat, _, by omega, ?_, hmask b hlt hdvd, decide_eq_true_iff, ?_, ?_⟩
    -- the offset is the lane's address, which lies in the tile
    · rw [tileOffsets_eq hd (by omega) query hquery, List.getElem?_map, hq, Int.toNat_of_nonneg h0]
      rfl
    -- where the query is selected it is the query's own offset
    · intro hselected
      obtain ⟨hbq, hqb⟩ := decide_eq_true_iff.mp hselected
      rw [lane_of_mem (by omega) hbq hqb]
      omega
    -- the gather finds an entry of the tile for every lane
    · intro tile htile
      have hin : (lane d b q).toNat < tile.length := by omega
      refine ⟨_, gather_tile hd (by omega) hquery htile, ?_⟩
      rw [List.getElem?_map, hq, List.getElem?_eq_getElem hin, ← read_of_lt hin]
      rfl
  -- the tiles share out the tokens of the row
  · obtain ⟨b, ⟨⟨hlt, hdvd⟩, hmem⟩, honly⟩ := exists_unique_tile hd hrange.1 hrange.2
    refine ⟨b, ⟨⟨hlt, hdvd⟩, by rw [hmask b hlt hdvd, decide_eq_true hmem]⟩, ?_⟩
    rintro b' ⟨⟨hlt', hdvd'⟩, hset⟩
    rw [hmask b' hlt' hdvd'] at hset
    exact honly b' ⟨⟨hlt', hdvd'⟩, of_decide_eq_true (Option.some.inj hset)⟩
  -- a query out of range is in no tile
  · have hle := tile_le hd hlt hdvd
    rw [hmask b hlt hdvd, decide_eq_false fun hmem => hrange ⟨by omega, by omega⟩]

/-- The last query of the index row, and the least `int32_t`, whose difference to the last tile
wraps around. -/
theorem tiles_select_extremes :
    (∃! b, (b < hbmSizes.INDEX_SIZE ∧ hbmSizes.INDEX_TILE_LEN ∣ b) ∧
      (tileOffsets hbmSizes [131071, -2147483648] b).2[0]? = some true) ∧
    ∀ b, b < hbmSizes.INDEX_SIZE → hbmSizes.INDEX_TILE_LEN ∣ b →
      (tileOffsets hbmSizes [131071, -2147483648] b).2[1]? = some false := by
  have hquery : ∀ q ∈ [(131071 : ℤ), -2147483648], -2 ^ 31 ≤ q ∧ q < 2 ^ 31 := by decide
  have hlast := tiles_select hbmSizes_fits hquery (i := 0) rfl
  have hleast := tiles_select hbmSizes_fits hquery (i := 1) rfl
  exact ⟨hlast.2.1 ⟨by decide, by decide⟩, hleast.2.2 fun h => absurd h.1 (by decide)⟩

end Tile

end AsuAscend.HbmIndex
