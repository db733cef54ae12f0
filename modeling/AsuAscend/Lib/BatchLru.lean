/-
LRU over batches of requests.

A cache of capacity `n` keeps a list of what it holds, the least recently used first. A
batch moves everything that it asks for to the end, what was absent in front of what was
held, each group in an order of its own, and the last `n` elements stay (`step`).

With batches of one this is LRU. For larger ones an element that two caches hold in
different places of a batch (absent in one of them, held in the other) comes to lie in
different places after it, so the order of the smaller cache is in general no part of the
order of the larger one. What the smaller one holds the larger one holds all the same
(`Stacked.subset`, which `Stacked.step` keeps): to the elements behind an element, a capacity
of `d` more has added at most `d` (`Included.spread`).

## What is compared

Until the smaller cache is full for the first time the two hold the same, in the same order. From
then on they are `Included`: what stands behind an element of both is more in the larger cache by
at most the difference of the capacities. `Stacked` is either of the two, and an induction over a
run goes through `Stacked.step`.
-/
import AsuAscend.Lib.Recency
import Mathlib.Data.Finset.Basic
import Mathlib.Data.List.Nodup
import Mathlib.Data.List.Perm.Basic

set_option autoImplicit false

namespace BatchLru

variable {α : Type} [DecidableEq α]

/-! ## The elements of a batch -/

/-- The elements of a list, each at its first occurrence. -/
def firsts : List α → List α
  | [] => []
  | x :: xs => x :: (firsts xs).filter (· ≠ x)

/-- The first occurrences, by the head of the list. -/
theorem firsts_cons (x : α) (xs : List α) :
    firsts (x :: xs) = x :: (firsts xs).filter (· ≠ x) := rfl

@[simp] theorem mem_firsts {x : α} {xs : List α} : x ∈ firsts xs ↔ x ∈ xs := by
  induction xs with
  | nil => rfl
  | cons y ys ih =>
      rw [firsts_cons, List.mem_cons, List.mem_cons, List.mem_filter, ih, decide_eq_true_eq]
      tauto

theorem firsts_nodup (xs : List α) : (firsts xs).Nodup := by
  induction xs with
  | nil => exact List.nodup_nil
  | cons y ys ih => exact List.nodup_cons.mpr ⟨by simp, ih.filter _⟩

/-- Dropping elements by a test commutes with dropping repetitions. -/
theorem firsts_filter (p : α → Bool) (xs : List α) :
    firsts (xs.filter p) = (firsts xs).filter p := by
  induction xs with
  | nil => rfl
  | cons y ys ih =>
      rw [firsts_cons]
      by_cases hy : p y = true
      · rw [List.filter_cons_of_pos hy, List.filter_cons_of_pos hy, firsts_cons, ih,
          List.filter_filter, List.filter_filter]
        simp only [Bool.and_comm]
      · rw [List.filter_cons_of_neg hy, List.filter_cons_of_neg hy, List.filter_filter, ih]
        -- `y` is not selected, so leaving it out changes nothing
        refine List.filter_congr fun x _ => ?_
        by_cases hxy : x = y
        · subst hxy
          simp [hy]
        · simp [hxy]

/-- The elements come in the order in which they first occur. -/
theorem firsts_sorted (xs : List α) :
    (firsts xs).Pairwise fun x y => xs.idxOf x < xs.idxOf y := by
  induction xs with
  | nil => exact List.Pairwise.nil
  | cons z zs ih =>
      have hne : ∀ x ∈ (firsts zs).filter (· ≠ z), x ≠ z := fun x hx => by
        simpa using List.of_mem_filter hx
      refine List.pairwise_cons.mpr ⟨fun x hx => ?_, ?_⟩
      · rw [List.idxOf_cons_self, List.idxOf_cons_ne _ (hne x hx).symm]
        exact Nat.succ_pos _
      · refine List.Pairwise.imp_of_mem ?_ (ih.filter _)
        intro x y hx hy hxy
        rw [List.idxOf_cons_ne _ (hne x hx).symm, List.idxOf_cons_ne _ (hne y hy).symm]
        omega

/-- A selection of a list's elements, in the order in which they first occur. -/
theorem eq_filter_firsts {p : α → Bool} {xs ys : List α} (hmem : ∀ x, x ∈ ys ↔ x ∈ xs ∧ p x = true)
    (hnd : ys.Nodup) (hsorted : ys.Pairwise fun x y => xs.idxOf x < xs.idxOf y) :
    ys = (firsts xs).filter p := by
  refine List.Perm.eq_of_pairwise (fun x y _ _ hxy hyx => absurd hxy (by omega)) hsorted
    ((firsts_sorted xs).filter p) ?_
  exact (List.perm_ext_iff_of_nodup hnd ((firsts_nodup xs).filter p)).mpr fun x => by
    rw [hmem, List.mem_filter, mem_firsts]

/-! ## The cache -/

/-- What the cache holds and what the batch asks for, the least recently used first. -/
def touch (order batch : List α) : List α :=
  order.filter (· ∉ batch) ++ (firsts batch).filter (· ∉ order) ++ order.filter (· ∈ batch)

/-- One batch. -/
def step (n : ℕ) (order batch : List α) : List α :=
  (touch order batch).drop ((touch order batch).length - n)

/-- Batch after batch. -/
def run (n : ℕ) (order : List α) (batches : List (List α)) : List α := batches.foldl (step n) order

/-- What has been used after a batch: what was there and what the batch has. -/
theorem mem_touch {order batch : List α} {x : α} :
    x ∈ touch order batch ↔ x ∈ order ∨ x ∈ batch := by
  unfold touch
  simp only [List.mem_append, List.mem_filter, decide_eq_true_eq, mem_firsts]
  tauto

theorem touch_nodup {order : List α} (h : order.Nodup) (batch : List α) :
    (touch order batch).Nodup := by
  unfold touch
  refine List.nodup_append.mpr ⟨List.nodup_append.mpr ⟨h.filter _, (firsts_nodup batch).filter _, ?_⟩,
    h.filter _, ?_⟩
  · rintro x hx y hy rfl
    exact absurd (List.mem_of_mem_filter hx) (by simpa using List.of_mem_filter hy)
  · rintro x hx y hy rfl
    have hbatch : x ∈ batch := by simpa using List.of_mem_filter hy
    rcases List.mem_append.mp hx with hx | hx
    · exact absurd hbatch (by simpa using List.of_mem_filter hx)
    · exact absurd (List.mem_of_mem_filter hy) (by simpa using List.of_mem_filter hx)

theorem length_le_touch (order batch : List α) : order.length ≤ (touch order batch).length := by
  have hsplit := (List.filter_append_perm (· ∈ batch) order).length_eq
  have hnot : (order.filter fun x => !decide (x ∈ batch)) = order.filter (· ∉ batch) := by simp
  rw [List.length_append, hnot] at hsplit
  unfold touch
  rw [List.length_append, List.length_append]
  omega

/-- A batch that asks only for what is held, or that there is room for, drops nothing. -/
theorem step_eq_touch {n : ℕ} {order batch : List α} (h : (touch order batch).length ≤ n) :
    step n order batch = touch order batch := by
  unfold step
  rw [Nat.sub_eq_zero_of_le h, List.drop_zero]

/-- After a step the cache holds what was used, up to its size. -/
theorem step_length (n : ℕ) (order batch : List α) :
    (step n order batch).length = min n (touch order batch).length := by
  unfold step
  rw [List.length_drop]
  omega

/-- A step keeps the elements of the order distinct. -/
theorem step_nodup {n : ℕ} {order : List α} (h : order.Nodup) (batch : List α) :
    (step n order batch).Nodup :=
  (touch_nodup h batch).sublist (List.drop_sublist _ _)

/-! ## More recently used -/

/-- `x` is used more recently than `a`. -/
def Newer (l : List α) (a x : α) : Prop := [a, x].Sublist l

instance (l : List α) (a x : α) : Decidable (Newer l a x) :=
  inferInstanceAs (Decidable (List.Sublist _ _))

section Newer

variable {l r : List α} {a x : α}

omit [DecidableEq α] in
/-- The older of the two stands in the order. -/
theorem Newer.mem_left (h : Newer l a x) : a ∈ l := h.subset List.mem_cons_self

omit [DecidableEq α] in
/-- So does the newer one. -/
theorem Newer.mem (h : Newer l a x) : x ∈ l :=
  h.subset (List.mem_cons_of_mem _ List.mem_cons_self)

omit [DecidableEq α] in
/-- In two lists, one after the other, `a` before `x` is before it in one of them, or each in
its own. -/
theorem newer_append :
    Newer (l ++ r) a x ↔ Newer l a x ∨ (a ∈ l ∧ x ∈ r) ∨ Newer r a x := by
  constructor
  · intro h
    obtain ⟨p, q, hpq, hp, hq⟩ := List.sublist_append_iff.mp h
    match p, hpq with
    | [], hpq => exact Or.inr (Or.inr (by rw [Newer, hpq]; exact hq))
    | [y], hpq =>
        simp only [List.cons_append, List.nil_append, List.cons.injEq] at hpq
        obtain ⟨rfl, rfl⟩ := hpq
        exact Or.inr (Or.inl ⟨List.singleton_sublist.mp hp, List.singleton_sublist.mp hq⟩)
    | [y, z], hpq =>
        simp only [List.cons_append, List.nil_append, List.cons.injEq] at hpq
        obtain ⟨rfl, rfl, _⟩ := hpq
        exact Or.inl hp
    | _ :: _ :: _ :: _, hpq => simp at hpq
  · rintro (h | ⟨ha, hx⟩ | h)
    · exact h.trans (List.sublist_append_left l r)
    · exact (List.singleton_sublist.mpr ha).append (List.singleton_sublist.mpr hx)
    · exact h.trans (List.sublist_append_right l r)

omit [DecidableEq α] in
theorem newer_filter {p : α → Bool} :
    Newer (l.filter p) a x ↔ Newer l a x ∧ p a = true ∧ p x = true := by
  constructor
  · intro h
    exact ⟨h.trans List.filter_sublist, List.of_mem_filter h.mem_left, List.of_mem_filter h.mem⟩
  · rintro ⟨h, ha, hx⟩
    have := List.Sublist.filter p h
    rwa [List.filter_cons_of_pos ha, List.filter_cons_of_pos hx] at this

omit [DecidableEq α] in
/-- What stays has the same elements behind it. -/
theorem newer_drop (hnd : l.Nodup) {k : ℕ} (ha : a ∈ l.drop k) :
    Newer (l.drop k) a x ↔ Newer l a x := by
  have hsplit : (l.take k ++ l.drop k).Nodup := by rwa [List.take_append_drop]
  have hnot : a ∉ l.take k := fun h => (List.nodup_append.mp hsplit).2.2 a h a ha rfl
  conv_rhs => rw [← List.take_append_drop k l, newer_append]
  exact ⟨fun h => Or.inr (Or.inr h), fun h => h.elim (fun h => absurd h.mem_left hnot)
    fun h => h.elim (fun h => absurd h.1 hnot) id⟩

/-- The elements behind `a`. -/
def behind (l : List α) (a : α) : Finset α := l.toFinset.filter (Newer l a)

/-- Who stands behind `a` has been used more recently. -/
theorem mem_behind : x ∈ behind l a ↔ Newer l a x := by
  unfold behind
  rw [Finset.mem_filter, List.mem_toFinset]
  exact ⟨And.right, fun h => ⟨h.mem, h⟩⟩

/-- Dropping from the front takes nobody from behind those that are left. -/
theorem behind_drop (hnd : l.Nodup) {k : ℕ} (ha : a ∈ l.drop k) : behind (l.drop k) a = behind l a := by
  ext x
  rw [mem_behind, mem_behind, newer_drop hnd ha]

/-- An element stays if fewer than `n` are behind it. -/
theorem mem_drop_iff_behind (hnd : l.Nodup) (ha : a ∈ l) (n : ℕ) :
    a ∈ l.drop (l.length - n) ↔ (behind l a).card < n := by
  obtain ⟨front, rest, rfl⟩ := List.append_of_mem ha
  rw [Recency.mem_drop_iff hnd]
  have hrest := List.nodup_cons.mp (List.nodup_append.mp hnd).2.1
  have hfront : a ∉ front := fun h => (List.nodup_append.mp hnd).2.2 a h a List.mem_cons_self rfl
  have hbehind : behind (front ++ a :: rest) a = rest.toFinset := by
    ext x
    rw [mem_behind, newer_append, List.mem_toFinset]
    constructor
    · rintro (h | h | h)
      · exact absurd h.mem_left hfront
      · exact absurd h.1 hfront
      · exact List.singleton_sublist.mp (List.cons_sublist_cons.mp h)
    · exact fun h => Or.inr (Or.inr (List.cons_sublist_cons.mpr (List.singleton_sublist.mpr h)))
  rw [hbehind, List.toFinset_card_of_nodup hrest.2]

end Newer

/-! ## Two capacities -/

section Touch

variable {order batch : List α} {a x : α}

/-- Behind an element that the batch does not ask for come those behind it and the batch. -/
theorem newer_touch_stale (ha : a ∈ order) (hb : a ∉ batch) :
    Newer (touch order batch) a x ↔ (Newer order a x ∨ x ∈ batch) := by
  unfold touch
  rw [newer_append, newer_append, newer_filter, newer_filter, newer_filter]
  simp only [List.mem_append, List.mem_filter, decide_eq_true_eq, mem_firsts, ha, hb, not_true_eq_false,
    not_false_eq_true, true_and, false_and, and_false, or_false, and_true]
  by_cases hx : x ∈ order <;> by_cases hxb : x ∈ batch <;> simp [hx, hxb]

/-- Behind an element that was absent come the absent ones after it, and all that was held. -/
theorem newer_touch_miss (ha : a ∉ order) : Newer (touch order batch) a x ↔
    (Newer (firsts batch) a x ∧ x ∉ order) ∨ (a ∈ batch ∧ x ∈ order ∧ x ∈ batch) := by
  have hnot : ¬ Newer order a x := fun h => ha h.mem_left
  unfold touch
  rw [newer_append, newer_append, newer_filter, newer_filter, newer_filter]
  simp only [List.mem_append, List.mem_filter, decide_eq_true_eq, mem_firsts, ha, hnot,
    not_false_eq_true, true_and, false_and, false_or, or_false, and_true]

/-- Behind an element that was held come those of the batch that were behind it. -/
theorem newer_touch_hit (ha : a ∈ order) (hb : a ∈ batch) :
    Newer (touch order batch) a x ↔ Newer order a x ∧ x ∈ batch := by
  unfold touch
  rw [newer_append, newer_append, newer_filter, newer_filter, newer_filter]
  simp only [List.mem_append, List.mem_filter, decide_eq_true_eq, mem_firsts, ha, hb, not_true_eq_false,
    true_and, false_and, and_false, or_self, false_or]

end Touch

/-- A full cache of capacity `n` beside one of capacity `n + d`. -/
structure Included (n d : ℕ) (small large : List α) : Prop where
  small_nodup : small.Nodup
  large_nodup : large.Nodup
  full : small.length = n
  large_le : large.length ≤ n + d
  subset : small ⊆ large
  spread : ∀ a ∈ small, (behind large a \ behind small a).card ≤ d

/-- The two caches hold the same as long as the smaller one has never been full. -/
def Stacked (n d : ℕ) (small large : List α) : Prop :=
  (small = large ∧ small.Nodup ∧ small.length ≤ n) ∨ Included n d small large

section Included

variable {n d : ℕ} {small large batch : List α}

/-- The smaller cache is part of the larger one. -/
theorem Stacked.subset (h : Stacked n d small large) : small ⊆ large := by
  rcases h with ⟨rfl, _, _⟩ | h
  · exact List.Subset.refl _
  · exact h.subset

/-- The larger cache holds at most `d` elements more. -/
theorem Included.extra (h : Included n d small large) :
    (large.toFinset \ small.toFinset).card ≤ d := by
  have hsub : small.toFinset ⊆ large.toFinset := fun x hx =>
    List.mem_toFinset.mpr (h.subset (List.mem_toFinset.mp hx))
  rw [Finset.card_sdiff_of_subset hsub, List.toFinset_card_of_nodup h.small_nodup,
    List.toFinset_card_of_nodup h.large_nodup, h.full]
  have := h.large_le
  omega

/-- A batch keeps the spread: of the elements behind `a` in the larger cache alone, each was so
before the batch, or all of them are held by the larger cache alone. -/
theorem Included.touch_spread (h : Included n d small large) {a : α} (ha : a ∈ touch small batch) :
    (behind (touch large batch) a \ behind (touch small batch) a).card ≤ d := by
  have hin : ∀ {x}, x ∈ small → x ∈ large := fun hx => h.subset hx
  by_cases hb : a ∈ batch
  · by_cases hs : a ∈ small
    · -- a hit in both caches
      refine le_trans (Finset.card_le_card fun x hx => ?_) (h.spread a hs)
      rw [Finset.mem_sdiff, mem_behind, mem_behind, newer_touch_hit (hin hs) hb,
        newer_touch_hit hs hb] at hx
      rw [Finset.mem_sdiff, mem_behind, mem_behind]
      tauto
    · -- a miss in the smaller cache: all that it held comes behind
      refine le_trans (Finset.card_le_card fun x hx => ?_) h.extra
      rw [Finset.mem_sdiff, mem_behind, mem_behind, newer_touch_miss hs] at hx
      rw [Finset.mem_sdiff, List.mem_toFinset, List.mem_toFinset]
      by_cases hl : a ∈ large
      · rw [newer_touch_hit hl hb] at hx
        exact ⟨hx.1.1.mem, fun hxs => hx.2 (Or.inr ⟨hb, hxs, hx.1.2⟩)⟩
      · rw [newer_touch_miss hl] at hx
        have := @hin x
        tauto
  · -- not asked for, so held by both
    have hs : a ∈ small := (mem_touch.mp ha).resolve_right hb
    refine le_trans (Finset.card_le_card fun x hx => ?_) (h.spread a hs)
    rw [Finset.mem_sdiff, mem_behind, mem_behind, newer_touch_stale (hin hs) hb,
      newer_touch_stale hs hb] at hx
    rw [Finset.mem_sdiff, mem_behind, mem_behind]
    tauto

/-- Also after a batch, before either has been cut to its size. -/
theorem touch_subset (h : small ⊆ large) : touch small batch ⊆ touch large batch := fun x hx => by
  rw [mem_touch] at hx ⊢
  exact hx.imp_left fun hs => h hs

/-- What follows once both orders are cut to their capacities. -/
theorem included_step (hs : small.Nodup) (hl : large.Nodup) (hfull : n ≤ (touch small batch).length)
    (hsub : touch small batch ⊆ touch large batch)
    (hspread : ∀ a ∈ touch small batch,
      (behind (touch large batch) a \ behind (touch small batch) a).card ≤ d) :
    Included n d (step n small batch) (step (n + d) large batch) := by
  have hts := touch_nodup hs batch
  have htl := touch_nodup hl batch
  -- what is cut from the larger cache is cut from the smaller one
  have hkeep : step n small batch ⊆ step (n + d) large batch := by
    intro a ha
    have hat : a ∈ touch small batch := List.mem_of_mem_drop ha
    have hlt := (mem_drop_iff_behind hts hat n).mp ha
    refine (mem_drop_iff_behind htl (hsub hat) (n + d)).mpr ?_
    have hcard : (behind (touch large batch) a).card ≤
        (behind (touch large batch) a \ behind (touch small batch) a).card +
          (behind (touch small batch) a).card := Finset.card_le_card_sdiff_add_card
    have := hspread a hat
    omega
  refine ⟨step_nodup hs batch, step_nodup hl batch, ?_, ?_, hkeep, fun a ha => ?_⟩
  · rw [step_length, Nat.min_eq_left hfull]
  · rw [step_length]
    exact Nat.min_le_left _ _
  · have hlarge := hkeep ha
    unfold step at ha hlarge ⊢
    rw [behind_drop hts ha, behind_drop htl hlarge]
    exact hspread a (List.mem_of_mem_drop ha)

/-- **One batch.** -/
theorem Stacked.step (h : Stacked n d small large) (batch : List α) :
    Stacked n d (step n small batch) (step (n + d) large batch) := by
  rcases h with ⟨rfl, hnd, hle⟩ | h
  · by_cases hfit : (touch small batch).length ≤ n
    · left
      rw [step_eq_touch hfit, step_eq_touch (le_trans hfit (Nat.le_add_right n d))]
      exact ⟨rfl, touch_nodup hnd batch, hfit⟩
    · -- the smaller cache is full for the first time
      right
      exact included_step hnd hnd (by omega) (List.Subset.refl _) fun a _ => by simp
  · right
    have hfull := length_le_touch small batch
    exact included_step h.small_nodup h.large_nodup (by rw [← h.full]; exact hfull)
      (touch_subset h.subset) fun a ha => h.touch_spread ha

end Included

end BatchLru
