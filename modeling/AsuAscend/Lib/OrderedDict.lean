/-
Dictionaries that keep their entries in order.

The order is the one of insertion, until `moveToEnd` or a removal changes it. No key
has two entries: the structure carries the proof.
-/
import Mathlib.Data.List.Nodup
import Mathlib.Data.List.Perm.Basic
import Mathlib.Tactic.SplitIfs

set_option autoImplicit false

structure OrderedDict (α β : Type) where
  /-- the entries, first one first -/
  entries : List (α × β)
  nodup : (entries.map Prod.fst).Nodup

namespace OrderedDict

variable {α β : Type}

def empty : OrderedDict α β := ⟨[], List.nodup_nil⟩

def keys (d : OrderedDict α β) : List α := d.entries.map Prod.fst

def values (d : OrderedDict α β) : List β := d.entries.map Prod.snd

def length (d : OrderedDict α β) : ℕ := d.entries.length

instance : Membership α (OrderedDict α β) := ⟨fun d k => k ∈ d.keys⟩

/-- A key is in the dictionary if it is among its keys. -/
theorem mem_iff {d : OrderedDict α β} {k : α} : k ∈ d ↔ k ∈ d.keys := Iff.rfl

instance [DecidableEq α] (d : OrderedDict α β) (k : α) : Decidable (k ∈ d) :=
  inferInstanceAs (Decidable (k ∈ d.keys))

theorem length_keys (d : OrderedDict α β) : d.keys.length = d.length := List.length_map _

/-- The first entry, and the dictionary without it. -/
def popFirst (d : OrderedDict α β) : Option ((α × β) × OrderedDict α β) :=
  match h : d.entries with
  | [] => none
  | e :: es => some (e, ⟨es, (List.nodup_cons.mp (h ▸ d.nodup)).2⟩)

/-- Only an empty dictionary has nothing to pop. -/
theorem popFirst_eq_none {d : OrderedDict α β} (h : d.popFirst = none) : d.entries = [] := by
  unfold popFirst at h
  split at h
  · assumption
  · cases h

theorem popFirst_eq_some {d d' : OrderedDict α β} {e : α × β} (h : d.popFirst = some (e, d')) :
    d.entries = e :: d'.entries := by
  unfold popFirst at h
  split at h
  · cases h
  · rename_i e' es heq
    rw [Option.some.injEq, Prod.mk.injEq] at h
    rw [heq, ← h.1, ← h.2]

variable [DecidableEq α]

/-- The entry of `k` is replaced where there is one, else appended. -/
def insert (d : OrderedDict α β) (k : α) (v : β) : OrderedDict α β :=
  if h : k ∈ d.keys then
    ⟨d.entries.map fun e => if e.1 = k then (k, v) else e, by
      have hsame : (d.entries.map fun e => if e.1 = k then (k, v) else e).map Prod.fst = d.keys := by
        rw [List.map_map, keys]
        apply List.map_congr_left
        intro e _
        show (if e.1 = k then (k, v) else e).1 = e.1
        split_ifs with he
        · exact he.symm
        · rfl
      rw [hsame]
      exact d.nodup⟩
  else
    ⟨d.entries ++ [(k, v)], by
      rw [List.map_append]
      exact d.nodup.append (List.nodup_singleton k) (List.disjoint_singleton.mpr h)⟩

theorem entries_insert {d : OrderedDict α β} {k : α} (h : k ∉ d) (v : β) :
    (d.insert k v).entries = d.entries ++ [(k, v)] := by
  unfold insert
  rw [dif_neg (mem_iff.not.mp h)]

theorem keys_insert {d : OrderedDict α β} {k : α} (h : k ∉ d) (v : β) :
    (d.insert k v).keys = d.keys ++ [k] := by
  rw [keys, entries_insert h, List.map_append]
  rfl

/-- The entry of `k`, if there is one, becomes the last. -/
def moveToEnd (d : OrderedDict α β) (k : α) : OrderedDict α β :=
  ⟨d.entries.filter (fun e => e.1 ≠ k) ++ d.entries.filter (fun e => e.1 = k), by
    have hperm : (d.entries.filter (fun e => e.1 ≠ k) ++ d.entries.filter (fun e => e.1 = k)).Perm
        d.entries := by
      apply List.Perm.trans List.perm_append_comm
      have h := List.filter_append_perm (fun e : α × β => decide (e.1 = k)) d.entries
      simpa only [ne_eq, decide_not] using h
    exact (hperm.map Prod.fst).nodup_iff.mpr d.nodup⟩

/-- Moving an entry to the end loses none. -/
theorem moveToEnd_perm (d : OrderedDict α β) (k : α) :
    (d.moveToEnd k).entries.Perm d.entries := by
  apply List.Perm.trans List.perm_append_comm
  have h := List.filter_append_perm (fun e : α × β => decide (e.1 = k)) d.entries
  simpa only [ne_eq, decide_not] using h

/-- So the same keys are in the dictionary. -/
theorem mem_moveToEnd {d : OrderedDict α β} {k k' : α} : k' ∈ d.moveToEnd k ↔ k' ∈ d :=
  ((d.moveToEnd_perm k).map Prod.fst).mem_iff

/-- The key that was moved is the last one now, the others are in their order. -/
theorem keys_moveToEnd {d : OrderedDict α β} {k : α} (h : k ∈ d) :
    (d.moveToEnd k).keys = d.keys.erase k ++ [k] := by
  have hothers : (d.entries.filter fun e => e.1 ≠ k).map Prod.fst = d.keys.erase k := by
    have herase : d.keys.erase k = d.keys.filter (· != k) := d.nodup.erase_eq_filter k
    rw [herase, keys, List.filter_map]
    congr 1
    apply List.filter_congr
    intro e _
    by_cases he : e.1 = k <;> simp [he]
  have hown : (d.entries.filter fun e => e.1 = k).map Prod.fst = [k] := by
    have hfilter : d.keys.filter (· = k) = (d.entries.filter fun e => e.1 = k).map Prod.fst := by
      rw [keys, List.filter_map]
      rfl
    have hcount : d.keys.count k = 1 := List.count_eq_one_of_mem d.nodup h
    rw [← hfilter, List.filter_eq, hcount]
    rfl
  show (_ ++ _ : List (α × β)).map Prod.fst = _
  rw [List.map_append, hothers, hown]

end OrderedDict
