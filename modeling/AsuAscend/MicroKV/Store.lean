/-
The key-value store behind the server, and the plain map it stands for.

The store is a map of maps by type and key, with a hash over the bytes of a key; `PlainMap` is a
function from a type and a key to a value, and `KVStore.view` the plain map of a store.

## What is relied on

The hash map of the library, with its lemmas: `get` after `put` and after `clear`. No property of
`keyHash` is needed. `exists_` and `size` are answers about the plain map too, and `size` counts
the keys of one type.

`StoreOp.leaves` and `LastWrite` say which write a read sees: the last one before it to its record,
where a `clear` writes the absence of every record of its type.
-/
import AsuAscend.MicroKV.Protocol
import AsuAscend.Lib.SequentialObject
import Mathlib.Data.Set.Card
import Mathlib.Tactic.Linarith

set_option autoImplicit false

open SequentialObject

namespace AsuAscend.MicroKV

structure Key where
  bytes : Vector UInt8 kKeyLength
deriving DecidableEq

/-- The zero-filled array of a fresh key, overwritten from its start. -/
def Key.ofBytes (data : Bytes) : Key :=
  ⟨⟨(data.takeD kKeyLength 0).toArray, by rw [List.size_toArray, List.takeD_length]⟩⟩

def Key.toBytes (key : Key) : Bytes := key.bytes.toList

@[simp] theorem Key.length_toBytes (key : Key) : key.toBytes.length = kKeyLength :=
  Vector.length_toList

@[simp] theorem Key.ofBytes_toBytes (key : Key) : Key.ofBytes key.toBytes = key := by
  have htake : key.toBytes.takeD kKeyLength 0 = key.toBytes := by
    rw [List.takeD_eq_take _ key.length_toBytes.ge, List.take_of_length_le key.length_toBytes.le]
  unfold Key.ofBytes
  congr 1
  apply Vector.toList_inj.mp
  exact htake

/-- `KeyHash`: FNV-1a over the bytes of the key. -/
def keyHash (key : Key) : UInt64 :=
  key.toBytes.foldl (fun hash byte => (hash ^^^ byte.toUInt64) * 1099511628211)
    1469598103934665603

instance : Hashable Key := ⟨keyHash⟩

structure KVStore where
  stores_ : Std.HashMap UInt8 (Std.HashMap Key Bytes)

namespace KVStore

/-- The store of a server that has just started. -/
def empty : KVStore := ⟨∅⟩

def put (s : KVStore) (type : UInt8) (key : Key) (value : Bytes) : Bool × KVStore :=
  (true, ⟨s.stores_.insert type ((s.stores_.getD type ∅).insert key value)⟩)

def get (s : KVStore) (type : UInt8) (key : Key) : Option Bytes :=
  match s.stores_[type]? with
  | none => none
  | some typeIt =>
      match typeIt[key]? with
      | none => none
      | some value => some value

def exists_ (s : KVStore) (type : UInt8) (key : Key) : Bool :=
  match s.stores_[type]? with
  | none => false
  | some typeIt => typeIt.contains key

def clear (s : KVStore) (type : UInt8) : KVStore := ⟨s.stores_.erase type⟩

def size (s : KVStore) (type : UInt8) : ℕ :=
  match s.stores_[type]? with
  | none => 0
  | some typeIt => typeIt.size

end KVStore

/-- One access to the store, made under `store_mutex_`. -/
inductive StoreOp
  | put (type : UInt8) (key : Key) (value : Bytes)
  | get (type : UInt8) (key : Key)
  | exists_ (type : UInt8) (key : Key)
  | clear (type : UInt8)
  | size (type : UInt8)
deriving DecidableEq

/-- What an access returns. -/
@[reducible] def StoreOp.Res : StoreOp → Type
  | put .. => Bool
  | get .. => Option Bytes
  | exists_ .. => Bool
  | clear .. => Unit
  | size .. => ℕ

/-- An access with its result. -/
abbrev Act := (o : StoreOp) × o.Res

def KVStore.step : (o : StoreOp) → KVStore → o.Res × KVStore
  | .put type key value, s => s.put type key value
  | .get type key, s => (s.get type key, s)
  | .exists_ type key, s => (s.exists_ type key, s)
  | .clear type, s => ((), s.clear type)
  | .size type, s => (s.size type, s)

/-! ## The plain map -/

/-- A map from (type, key) to bytes: what the store is for. -/
abbrev PlainMap := UInt8 × Key → Option Bytes

namespace PlainMap

def empty : PlainMap := fun _ => none

def put (m : PlainMap) (type : UInt8) (key : Key) (value : Bytes) : PlainMap :=
  Function.update m (type, key) (some value)

def clear (m : PlainMap) (type : UInt8) : PlainMap := fun p => if p.1 = type then none else m p

/-- The keys stored under one type. -/
def keys (m : PlainMap) (type : UInt8) : Set Key := { key | m (type, key) ≠ none }

noncomputable def size (m : PlainMap) (type : UInt8) : ℕ := (m.keys type).ncard

noncomputable def step : (o : StoreOp) → PlainMap → o.Res × PlainMap
  | .put type key value, m => (true, m.put type key value)
  | .get type key, m => (m (type, key), m)
  | .exists_ type key, m => ((m (type, key)).isSome, m)
  | .clear type, m => ((), m.clear type)
  | .size type, m => (m.size type, m)

end PlainMap

/-! ## Which write a read sees -/

/-- Whether the access sets what is stored at `p`. -/
def StoreOp.Writes (p : UInt8 × Key) : StoreOp → Prop
  | put type key _ => (type, key) = p
  | clear type => type = p.1
  | _ => False

/-- Whether the access reads what is stored at `p`. -/
def StoreOp.Reads (p : UInt8 × Key) : StoreOp → Prop
  | get type key => (type, key) = p
  | exists_ type key => (type, key) = p
  | _ => False

/-- What a write leaves where it writes. -/
def StoreOp.leaves : StoreOp → Option Bytes
  | put _ _ value => some value
  | _ => none

/-- The access is a read that saw `value`. -/
def Act.Saw (value : Option Bytes) : Act → Prop
  | ⟨.get _ _, res⟩ => res = value
  | ⟨.exists_ _ _, res⟩ => res = value.isSome
  | _ => False

/-- `ops[c]` is the last write to `p` before position `b`. -/
def LastWrite (ops : List StoreOp) (p : UInt8 × Key) (b c : ℕ) : Prop :=
  c < b ∧ (∃ o, ops[c]? = some o ∧ o.Writes p) ∧
    ∀ d o, c < d → d < b → ops[d]? = some o → ¬ o.Writes p

namespace PlainMap

/-- An operation that writes a cell leaves there what it says. -/
theorem step_of_writes {o : StoreOp} {p : UInt8 × Key} (h : o.Writes p) (m : PlainMap) :
    (step o m).2 p = o.leaves := by
  cases o with
  | put type key value =>
      subst h
      exact Function.update_self _ _ _
  | clear type => exact if_pos h.symm
  | get type key => exact h.elim
  | exists_ type key => exact h.elim
  | size type => exact h.elim

/-- One that does not leaves the cell alone. -/
theorem step_of_not_writes {o : StoreOp} {p : UInt8 × Key} (h : ¬ o.Writes p) (m : PlainMap) :
    (step o m).2 p = m p := by
  cases o with
  | put type key value => exact Function.update_of_ne (Ne.symm h) _ _
  | clear type => exact if_neg (Ne.symm h)
  | get type key => rfl
  | exists_ type key => rfl
  | size type => rfl

theorem after_of_not_writes {ops : List StoreOp} {p : UInt8 × Key}
    (h : ∀ o ∈ ops, ¬ o.Writes p) (m : PlainMap) : after step m ops p = m p := by
  induction ops generalizing m with
  | nil => rfl
  | cons o ops ih =>
      rw [after_cons, ih fun o' ho' => h o' (List.mem_cons_of_mem _ ho'),
        step_of_not_writes (h o List.mem_cons_self)]

/-- A read sees what is stored where it reads. -/
theorem saw_of_reads {o : StoreOp} {p : UInt8 × Key} (h : o.Reads p) (m : PlainMap) :
    Act.Saw (m p) ⟨o, (step o m).1⟩ := by
  cases o with
  | get type key => exact congrArg m h
  | exists_ type key => exact congrArg (fun q => (m q).isSome) h
  | put type key value => exact h.elim
  | clear type => exact h.elim
  | size type => exact h.elim

/-- What is stored at `p` is what the last write to it left. -/
theorem after_lastWrite {ops : List StoreOp} {p : UInt8 × Key} {b c : ℕ} {o : StoreOp}
    (h : LastWrite ops p b c) (ho : ops[c]? = some o) (m : PlainMap) :
    after step m (ops.take b) p = o.leaves := by
  obtain ⟨hcb, ⟨o', ho', hwrites⟩, hlast⟩ := h
  rw [ho, Option.some.injEq] at ho'
  subst ho'
  obtain ⟨hlt, hget⟩ := List.getElem?_eq_some_iff.mp ho
  have hsplit : ops.take b = ops.take (c + 1) ++ (ops.take b).drop (c + 1) := by
    rw [← List.take_append_drop (c + 1) (ops.take b), List.take_take,
      Nat.min_eq_left (Nat.succ_le_of_lt hcb), List.drop_append_of_le_length (by
        rw [List.length_take]; omega), List.drop_take_self, List.nil_append]
  rw [hsplit, after_append, after_of_not_writes, List.take_succ_eq_append_getElem hlt, hget,
    after_append]
  · exact step_of_writes hwrites _
  · intro o' ho'
    obtain ⟨d, hd, rfl⟩ := List.mem_iff_getElem.mp ho'
    rw [List.length_drop, List.length_take] at hd
    rw [List.getElem_drop, List.getElem_take]
    exact hlast (c + 1 + d) _ (by omega) (by omega) (List.getElem?_eq_getElem _)

/-- A cell that nobody has written is as it was at the start. -/
theorem after_no_lastWrite {ops : List StoreOp} {p : UInt8 × Key} {b : ℕ}
    (h : ∀ c o, c < b → ops[c]? = some o → ¬ o.Writes p) (m : PlainMap) :
    after step m (ops.take b) p = m p := by
  apply after_of_not_writes
  intro o ho
  obtain ⟨c, hc, rfl⟩ := List.mem_iff_getElem.mp ho
  rw [List.length_take] at hc
  rw [List.getElem_take]
  exact h c _ (by omega) (List.getElem?_eq_getElem _)

end PlainMap

/-- A write before `b` is not after the last one. -/
theorem lastWrite_ge {ops : List StoreOp} {p : UInt8 × Key} {a b : ℕ} {o : StoreOp} (hab : a < b)
    (ho : ops[a]? = some o) (hw : o.Writes p) : ∃ c, a ≤ c ∧ LastWrite ops p b c := by
  classical
  let P := fun d : ℕ => ∃ o : StoreOp, ops[d]? = some o ∧ o.Writes p
  have hb : a ≤ b - 1 := by omega
  have hP : P a := ⟨o, ho, hw⟩
  have hlast : P (Nat.findGreatest P (b - 1)) := Nat.findGreatest_spec hb hP
  have hle : Nat.findGreatest P (b - 1) ≤ b - 1 := Nat.findGreatest_le _
  refine ⟨Nat.findGreatest P (b - 1), Nat.le_findGreatest hb hP, by omega, hlast, ?_⟩
  intro d o' hcd hdb ho' hw'
  exact Nat.findGreatest_is_greatest (P := P) hcd (by omega) ⟨o', ho', hw'⟩

/-! ## The store is the plain map -/

/-- The plain map that a store holds. -/
def KVStore.view (s : KVStore) : PlainMap := fun p => s.get p.1 p.2

/-- A lookup goes through the type and then the key. -/
theorem KVStore.get_eq (s : KVStore) (type : UInt8) (key : Key) :
    s.get type key = s.stores_[type]?.bind fun typeIt => typeIt[key]? := by
  unfold KVStore.get
  cases h : s.stores_[type]? with
  | none => rfl
  | some typeIt =>
      rw [Option.bind_some]
      cases hv : typeIt[key]? <;> simp only [hv]

theorem KVStore.view_empty : KVStore.empty.view = PlainMap.empty := by
  funext p
  show KVStore.empty.get p.1 p.2 = none
  rw [KVStore.get_eq, KVStore.empty, Std.HashMap.getElem?_empty]
  rfl

/-- A put of the store is one of the map that it stands for. -/
theorem KVStore.view_put (s : KVStore) (type : UInt8) (key : Key) (value : Bytes) :
    (s.put type key value).2.view = s.view.put type key value := by
  funext p
  obtain ⟨type', key'⟩ := p
  show (s.put type key value).2.get type' key' = Function.update s.view (type, key) _ (type', key')
  rw [KVStore.get_eq, KVStore.put, Std.HashMap.getElem?_insert]
  by_cases ht : type = type'
  · subst ht
    rw [if_pos (beq_self_eq_true type), Option.bind_some, Std.HashMap.getElem?_insert]
    by_cases hk : key = key'
    · subst hk
      rw [if_pos (beq_self_eq_true key), Function.update_self]
    · rw [if_neg (by simpa using hk), Function.update_of_ne (by simpa using Ne.symm hk)]
      show _ = s.get type key'
      rw [KVStore.get_eq, Std.HashMap.getD_eq_getD_getElem?]
      cases s.stores_[type]? with
      | none => exact Std.HashMap.getElem?_empty
      | some typeIt => rfl
  · rw [if_neg (by simpa using ht), Function.update_of_ne (by simp [Ne.symm ht])]
    exact (s.get_eq type' key').symm

theorem KVStore.view_clear (s : KVStore) (type : UInt8) :
    (s.clear type).view = s.view.clear type := by
  funext p
  obtain ⟨type', key'⟩ := p
  show (s.clear type).get type' key' = if type' = type then none else s.get type' key'
  rw [KVStore.get_eq, KVStore.clear, Std.HashMap.getElem?_erase]
  by_cases ht : type = type'
  · rw [if_pos (by simpa using ht), if_pos ht.symm]
    rfl
  · rw [if_neg (by simpa using ht), if_neg (Ne.symm ht), s.get_eq]

/-- The test for a key is made on that map. -/
theorem KVStore.exists_eq (s : KVStore) (type : UInt8) (key : Key) :
    s.exists_ type key = (s.view (type, key)).isSome := by
  show s.exists_ type key = (s.get type key).isSome
  rw [KVStore.get_eq, KVStore.exists_]
  cases s.stores_[type]? with
  | none => rfl
  | some typeIt => exact Std.HashMap.contains_eq_isSome_getElem?

theorem KVStore.size_eq (s : KVStore) (type : UInt8) : s.size type = s.view.size type := by
  have hkey : ∀ key, key ∈ s.view.keys type ↔ (s.get type key).isSome := by
    intro key
    exact Option.ne_none_iff_isSome
  unfold KVStore.size PlainMap.size
  cases h : s.stores_[type]? with
  | none =>
      have hkeys : s.view.keys type = ∅ := by
        ext key
        rw [hkey, KVStore.get_eq, h]
        simp
      rw [hkeys, Set.ncard_empty]
  | some typeIt =>
      have hkeys : s.view.keys type = ↑typeIt.keys.toFinset := by
        ext key
        rw [hkey, KVStore.get_eq, h, List.coe_toFinset, Set.mem_ofPred_eq, Std.HashMap.mem_keys]
        exact Std.HashMap.mem_iff_isSome_getElem?.symm
      rw [hkeys, Set.ncard_coe_finset, List.toFinset_card_of_nodup Std.HashMap.nodup_keys,
        Std.HashMap.length_keys]

/-- Every access acts on the store as on the plain map. -/
theorem store_views : Views KVStore.step PlainMap.step KVStore.view := by
  intro o s
  cases o with
  | put type key value => exact ⟨rfl, (s.view_put type key value).symm⟩
  | get type key => exact ⟨rfl, rfl⟩
  | exists_ type key => exact ⟨(s.exists_eq type key).symm, rfl⟩
  | clear type => exact ⟨rfl, (s.view_clear type).symm⟩
  | size type => exact ⟨(s.size_eq type).symm, rfl⟩

end AsuAscend.MicroKV
