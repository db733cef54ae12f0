/-
Cores that write to one memory, in any interleaving.

Each core has a fixed list of actions, its writes in order. `Interleaves` says that a
list of actions of all cores is some shuffle of these lists. What a cell holds in the
end depends on the writes to it alone (`writeAll_filter`), so that the shuffle does not
matter where each cell has one writer (`Interleaves.writeAll_eq`).
-/
import Mathlib.Data.List.Nodup
import Mathlib.Logic.Function.Basic

set_option autoImplicit false

open Function (update)

namespace Interleavings

variable {α A V κ : Type}

/-! ## Shuffles -/

/-- The actions of core `c`, in order. -/
def own (c : ℕ) (order : List (ℕ × α)) : List α :=
  (order.filter fun e => e.1 = c).map Prod.snd

/-- `order` is a shuffle of the lists of `T` cores. -/
structure Interleaves (T : ℕ) (progs : ℕ → List α) (order : List (ℕ × α)) : Prop where
  core : ∀ e ∈ order, e.1 < T
  own : ∀ c < T, own c order = progs c

/-- A list, sorted by a key below `T`. -/
theorem flatMap_filter_perm (f : α → ℕ) (l : List α) (T : ℕ) (h : ∀ x ∈ l, f x < T) :
    ((List.range T).flatMap fun c => l.filter fun x => f x = c).Perm l := by
  have key : ∀ n, ((List.range n).flatMap fun c => l.filter fun x => f x = c).Perm
      (l.filter fun x => f x < n) := by
    intro n
    induction n with
    | zero => simp
    | succ n ih =>
        rw [List.range_succ, List.flatMap_append, List.flatMap_singleton]
        refine (ih.append_right _).trans ?_
        -- the elements of key `n` come last
        have hsplit := List.filter_append_perm (fun x => decide (f x < n))
          (l.filter fun x => f x < n + 1)
        rw [List.filter_filter, List.filter_filter] at hsplit
        refine List.Perm.trans (List.Perm.of_eq ?_) hsplit
        congr 1
        · refine List.filter_congr fun x _ => ?_
          rw [← Bool.decide_and, decide_eq_decide]
          omega
        · refine List.filter_congr fun x _ => ?_
          rw [← decide_not, ← Bool.decide_and, decide_eq_decide]
          omega
  refine (key T).trans (List.Perm.of_eq ?_)
  exact List.filter_eq_self.mpr fun x hx => decide_eq_true (h x hx)

/-- A shuffle has the actions of all cores. -/
theorem Interleaves.perm {T : ℕ} {progs : ℕ → List α} {order : List (ℕ × α)}
    (h : Interleaves T progs order) : (order.map Prod.snd).Perm ((List.range T).flatMap progs) := by
  have hsort := (flatMap_filter_perm Prod.fst order T h.core).map Prod.snd
  rw [List.map_flatMap] at hsort
  refine hsort.symm.trans (List.Perm.of_eq ?_)
  refine List.flatMap_congr fun c hc => ?_
  exact h.own c (List.mem_range.mp hc)

/-- What an interleaving has, one of the programs has. -/
theorem Interleaves.mem {T : ℕ} {progs : ℕ → List α} {order : List (ℕ × α)}
    (h : Interleaves T progs order) {e : ℕ × α} (he : e ∈ order) : e.2 ∈ progs e.1 := by
  rw [← h.own _ (h.core e he)]
  exact List.mem_map_of_mem (List.mem_filter.mpr ⟨he, decide_eq_true rfl⟩)

/-- The cores one after the other. -/
theorem interleaves_sequential (T : ℕ) (progs : ℕ → List α) :
    Interleaves T progs ((List.range T).flatMap fun c => (progs c).map fun x => (c, x)) := by
  constructor
  · intro e he
    obtain ⟨c, hc, he⟩ := List.mem_flatMap.mp he
    obtain ⟨x, -, rfl⟩ := List.mem_map.mp he
    exact List.mem_range.mp hc
  · intro c hc
    have key : ∀ n, own c ((List.range n).flatMap fun c => (progs c).map fun x => (c, x)) =
        if c < n then progs c else [] := by
      intro n
      induction n with
      | zero => rfl
      | succ n ih =>
          have hlast : own c ((progs n).map fun x => (n, x)) = if n = c then progs n else [] := by
            unfold own
            by_cases hn : n = c <;> simp [List.filter_map, Function.comp_def, hn]
          rw [List.range_succ, List.flatMap_append, List.flatMap_singleton]
          unfold own at ih hlast ⊢
          rw [List.filter_append, List.map_append, ih, hlast]
          by_cases hlt : c < n
          · rw [if_pos hlt, if_neg (by omega), if_pos (by omega), List.append_nil]
          · by_cases heq : n = c
            · rw [if_neg hlt, if_pos heq, if_pos (by omega), heq]
              rfl
            · rw [if_neg hlt, if_neg heq, if_neg (by omega)]
              rfl
    rw [key T, if_pos hc]

/-! ## Writes -/

variable [DecidableEq A]

/-- The memory after some writes. -/
def writeAll (ws : List (A × V)) (m : A → V) : A → V :=
  ws.foldl (fun m w => update m w.1 w.2) m

@[simp] theorem writeAll_nil (m : A → V) : writeAll [] m = m := rfl

@[simp] theorem writeAll_cons (w : A × V) (ws : List (A × V)) (m : A → V) :
    writeAll (w :: ws) m = writeAll ws (update m w.1 w.2) := rfl

/-- Two runs of writes, one after the other. -/
theorem writeAll_append (ws ws' : List (A × V)) (m : A → V) :
    writeAll (ws ++ ws') m = writeAll ws' (writeAll ws m) := List.foldl_append

/-- What a cell holds comes from what it held and the writes to it. -/
theorem writeAll_filter_of_eq (ws : List (A × V)) {m m' : A → V} {a : A} (h : m a = m' a) :
    writeAll ws m a = writeAll (ws.filter fun w => w.1 = a) m' a := by
  induction ws generalizing m m' with
  | nil => exact h
  | cons w ws ih =>
      by_cases hw : w.1 = a
      · rw [List.filter_cons_of_pos (by simpa using hw), writeAll_cons, writeAll_cons]
        apply ih
        rw [hw, Function.update_self, Function.update_self]
      · rw [List.filter_cons_of_neg (by simpa using hw), writeAll_cons]
        apply ih
        rw [Function.update_of_ne (Ne.symm hw), h]

/-- Only the writes to a cell matter to it. -/
theorem writeAll_filter (ws : List (A × V)) (m : A → V) (a : A) :
    writeAll ws m a = writeAll (ws.filter fun w => w.1 = a) m a := writeAll_filter_of_eq ws rfl

/-- What a cell ends as depends on the memory only through that cell. -/
theorem writeAll_congr (ws : List (A × V)) {m m' : A → V} {a : A} (h : m a = m' a) :
    writeAll ws m a = writeAll ws m' a := by
  rw [writeAll_filter_of_eq ws h, ← writeAll_filter]

/-- A cell that no write goes to is as it was. -/
theorem writeAll_untouched {ws : List (A × V)} {m : A → V} {a : A} (h : ∀ w ∈ ws, w.1 ≠ a) :
    writeAll ws m a = m a := by
  rw [writeAll_filter, List.filter_eq_nil_iff.mpr (fun w hw => by simpa using h w hw)]
  rfl

/-- A cell that is written to holds one of the values written to it. -/
theorem writeAll_eq_of_forall {ws : List (A × V)} {m : A → V} {a : A} {v : V}
    (hmem : ∃ w ∈ ws, w.1 = a) (h : ∀ w ∈ ws, w.1 = a → w.2 = v) : writeAll ws m a = v := by
  rcases List.eq_nil_or_concat (ws.filter fun w => w.1 = a) with hnil | ⟨l, w, hl⟩
  · obtain ⟨w, hw, ha⟩ := hmem
    exact absurd (List.filter_eq_nil_iff.mp hnil w hw) (by simpa using ha)
  · have hw : w ∈ ws.filter fun w => w.1 = a := by rw [hl]; simp
    obtain ⟨hw, ha⟩ := List.mem_filter.mp hw
    have ha' : w.1 = a := of_decide_eq_true ha
    rw [writeAll_filter, hl, List.concat_eq_append, writeAll_append, writeAll_cons, writeAll_nil,
      ha', Function.update_self, h w hw ha']

/-- The last write to a cell wins. -/
theorem writeAll_last (pre : List (A × V)) (w : A × V) {post : List (A × V)}
    (h : ∀ w' ∈ post, w'.1 ≠ w.1) (m : A → V) : writeAll (pre ++ w :: post) m w.1 = w.2 := by
  rw [writeAll_append, writeAll_cons, writeAll_untouched h, Function.update_self]

/-- The writes, seen through an embedding of the addresses. -/
theorem writeAll_map {B : Type} [DecidableEq B] {f : B → A} (hf : Function.Injective f)
    (ws : List (B × V)) (m : A → V) (b : B) :
    writeAll (ws.map fun w => (f w.1, w.2)) m (f b) = writeAll ws (fun b => m (f b)) b := by
  induction ws generalizing m with
  | nil => rfl
  | cons w ws ih =>
      rw [List.map_cons, writeAll_cons, writeAll_cons, ih]
      apply writeAll_congr
      by_cases hb : b = w.1
      · simp [hb]
      · rw [Function.update_of_ne hb, Function.update_of_ne (hf.ne hb)]

/-- Tasks whose writes name the task: a cell is written by its own task alone. -/
theorem writeAll_flatMap [DecidableEq κ] (key : A → κ) {xs : List κ} (hnodup : xs.Nodup)
    {f : κ → List (A × V)} (hkey : ∀ x ∈ xs, ∀ w ∈ f x, key w.1 = x) (m : A → V) (a : A) :
    writeAll (xs.flatMap f) m a = if key a ∈ xs then writeAll (f (key a)) m a else m a := by
  induction xs generalizing m with
  | nil => rfl
  | cons x xs ih =>
      obtain ⟨hx, hxs⟩ := List.nodup_cons.mp hnodup
      rw [List.flatMap_cons, writeAll_append,
        ih hxs fun y hy => hkey y (List.mem_cons_of_mem x hy)]
      have hother : key a ≠ x → writeAll (f x) m a = m a := fun hne =>
        writeAll_untouched fun w hw ha => hne (by rw [← ha, hkey x List.mem_cons_self w hw])
      by_cases hin : key a ∈ xs
      · have hne : key a ≠ x := fun h => hx (h ▸ hin)
        rw [if_pos hin, if_pos (List.mem_cons_of_mem x hin)]
        exact writeAll_congr _ (hother hne)
      · rw [if_neg hin]
        by_cases heq : key a = x
        · rw [if_pos (by rw [heq]; exact List.mem_cons_self), heq]
        · rw [if_neg (by simp [heq, hin]), hother heq]

/-- Writes by cores that each write to cells of their own: the shuffle does not matter. -/
theorem Interleaves.writeAll_eq {T : ℕ} {progs : ℕ → List (A × V)} {order : List (ℕ × A × V)}
    (h : Interleaves T progs order) (owner : A → ℕ)
    (howner : ∀ c < T, ∀ w ∈ progs c, owner w.1 = c) (m : A → V) (a : A) :
    writeAll (order.map Prod.snd) m a =
      if owner a < T then writeAll (progs (owner a)) m a else m a := by
  have hmem : ∀ e ∈ order, owner e.2.1 = e.1 := fun e he => howner _ (h.core e he) _ (h.mem he)
  by_cases ha : owner a < T
  · rw [if_pos ha, ← h.own _ ha, writeAll_filter, writeAll_filter (Interleavings.own (owner a) order)]
    congr 1
    unfold Interleavings.own
    -- a write to the cell is one of its owner
    rw [List.filter_map, List.filter_map, List.filter_filter]
    congr 1
    refine List.filter_congr fun e he => ?_
    have hown := hmem e he
    by_cases heq : e.2.1 = a
    · rw [heq] at hown
      simp [heq, hown]
    · simp [heq]
  · rw [if_neg ha]
    refine writeAll_untouched fun w hw heq => ha ?_
    obtain ⟨e, he, rfl⟩ := List.mem_map.mp hw
    rw [← heq, hmem e he]
    exact h.core e he

end Interleavings
