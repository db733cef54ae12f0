/-
The pool of managed-token slots in the eviction simulator.

`LRUManagedCache` is the class of that name: its free slots, with the one that is taken
next at the end, and its resident tokens with their slots, least recently used
first. `prepareFreeSlots_spec` and `resolveToken_cases` say what the two operations do, and
every invariant is derived from them.

## The order of the free slots

The list of free slots is a stack: `pop()` takes the last one, and evicted slots are appended.
Which slot a token gets is therefore determined by the run, and the model keeps it, although
what the simulator reports depends on their number only.

`Conserves total` is the one invariant that the whole simulation needs: the free slots and the
slots of residents are the numbers below `total`, each once.
-/
import AsuAscend.Lib.OrderedDict
import Mathlib.Data.Int.Init
import Mathlib.Tactic.Common

set_option autoImplicit false

namespace AsuAscend.Simu

/-- A request and one of its tokens. -/
abbrev TokenKey := ℕ × ℕ

structure QueryStats where
  hits : ℕ
  misses : ℕ
  installs : ℕ
  shortages : ℕ
deriving DecidableEq

namespace QueryStats

/-- `QueryStats()` -/
def zero : QueryStats := ⟨0, 0, 0, 0⟩

def queries (s : QueryStats) : ℕ := s.hits + s.misses

def add (s other : QueryStats) : QueryStats where
  hits := s.hits + other.hits
  misses := s.misses + other.misses
  installs := s.installs + other.installs
  shortages := s.shortages + other.shortages

end QueryStats

variable {Token : Type}

structure LRUManagedCache (Token : Type) where
  freeSlotTarget : ℕ
  /-- the last one is taken next -/
  freeSlots : List ℕ
  residents : OrderedDict Token ℕ

namespace LRUManagedCache

def init (totalSlots freeSlotTarget : ℤ) : Except String (LRUManagedCache Token) :=
  if totalSlots < 0 then
    throw "total_slots must be non-negative"
  else if freeSlotTarget < 0 then
    throw "free_slot_target must be non-negative"
  else
    return {
      freeSlotTarget := (min freeSlotTarget totalSlots).toNat
      freeSlots := (List.range totalSlots.toNat).reverse
      residents := .empty }

def residentCount (c : LRUManagedCache Token) : ℕ := c.residents.length

/-- Evicts tokens until the target of free slots is met, counting from `evicted` on. -/
def prepareLoop (c : LRUManagedCache Token) (evicted : ℕ) : ℕ × LRUManagedCache Token :=
  if c.freeSlots.length < c.freeSlotTarget then
    match h : c.residents.popFirst with
    | none => (evicted, c)
    | some ((_, slot), residents) =>
        prepareLoop { c with residents := residents, freeSlots := c.freeSlots ++ [slot] } (evicted + 1)
  else
    (evicted, c)
termination_by c.residents.length
decreasing_by
  show residents.entries.length < c.residents.entries.length
  rw [OrderedDict.popFirst_eq_some h, List.length_cons]
  exact Nat.lt_succ_self _

def prepareFreeSlots (c : LRUManagedCache Token) : ℕ × LRUManagedCache Token := c.prepareLoop 0

variable [DecidableEq Token]

/-- One round of the loop of `resolve_query`. -/
def resolveToken (s : LRUManagedCache Token × QueryStats) (token : Token) :
    LRUManagedCache Token × QueryStats :=
  let (c, stats) := s
  if token ∈ c.residents then
    ({ c with residents := c.residents.moveToEnd token }, { stats with hits := stats.hits + 1 })
  else
    let stats := { stats with misses := stats.misses + 1 }
    match c.freeSlots.getLast? with
    | some slot =>
        ({ c with freeSlots := c.freeSlots.dropLast, residents := c.residents.insert token slot },
          { stats with installs := stats.installs + 1 })
    | none => (c, { stats with shortages := stats.shortages + 1 })

def resolveQuery (c : LRUManagedCache Token) (tokens : List Token) :
    LRUManagedCache Token × QueryStats := tokens.foldl resolveToken (c, .zero)

end LRUManagedCache

/-! ## What the operations do -/

namespace LRUManagedCache

/-- Eviction takes the least recently used tokens, as many as are missing from the target or
as there are. -/
theorem prepareLoop_spec (c : LRUManagedCache Token) (evicted : ℕ) :
    ∃ n, n = min c.residents.length (c.freeSlotTarget - c.freeSlots.length) ∧
      (c.prepareLoop evicted).1 = evicted + n ∧
      (c.prepareLoop evicted).2.freeSlotTarget = c.freeSlotTarget ∧
      (c.prepareLoop evicted).2.freeSlots =
        c.freeSlots ++ (c.residents.entries.take n).map Prod.snd ∧
      (c.prepareLoop evicted).2.residents.entries = c.residents.entries.drop n := by
  fun_induction prepareLoop c evicted with
  | case1 c evicted hlt hpop =>
      have hnil := OrderedDict.popFirst_eq_none hpop
      have hlen : c.residents.length = 0 := congrArg List.length hnil
      refine ⟨0, by rw [hlen, Nat.zero_min], rfl, rfl, ?_, rfl⟩
      rw [List.take_zero, List.map_nil, List.append_nil]
  | case2 c evicted hlt token slot residents hpop ih =>
      obtain ⟨n, hn, hevicted, htarget, hfree, hresidents⟩ := ih
      have hentries := OrderedDict.popFirst_eq_some hpop
      have hlen : c.residents.length = residents.length + 1 := by
        show c.residents.entries.length = residents.entries.length + 1
        rw [hentries, List.length_cons]
      dsimp only at hn
      rw [List.length_append, List.length_singleton] at hn
      refine ⟨n + 1, by omega, by rw [hevicted]; omega, htarget, ?_, ?_⟩
      · rw [hfree, hentries, List.take_succ_cons, List.map_cons, List.append_assoc,
          List.singleton_append]
      · rw [hresidents, hentries, List.drop_succ_cons]
  | case3 c evicted hge =>
      have hzero : c.freeSlotTarget - c.freeSlots.length = 0 := by omega
      refine ⟨0, by rw [hzero, Nat.min_zero], rfl, rfl, ?_, rfl⟩
      rw [List.take_zero, List.map_nil, List.append_nil]

/-- **What preparing does.** It evicts the first entries, as many as are missing to the target
or as there are, and their slots become free in this order. -/
theorem prepareFreeSlots_spec (c : LRUManagedCache Token) :
    ∃ n, n = min c.residents.length (c.freeSlotTarget - c.freeSlots.length) ∧
      c.prepareFreeSlots.1 = n ∧
      c.prepareFreeSlots.2.freeSlotTarget = c.freeSlotTarget ∧
      c.prepareFreeSlots.2.freeSlots =
        c.freeSlots ++ (c.residents.entries.take n).map Prod.snd ∧
      c.prepareFreeSlots.2.residents.entries = c.residents.entries.drop n := by
  obtain ⟨n, hn, hevicted, hrest⟩ := c.prepareLoop_spec 0
  exact ⟨n, hn, hevicted.trans (Nat.zero_add n), hrest⟩

variable [DecidableEq Token]

/-- A query finds its token resident, or installs it in the last free slot, or finds no slot. -/
theorem resolveToken_cases (c : LRUManagedCache Token) (stats : QueryStats) (token : Token) :
    (token ∈ c.residents ∧ resolveToken (c, stats) token =
      ({ c with residents := c.residents.moveToEnd token },
        { stats with hits := stats.hits + 1 })) ∨
    (∃ free slot, token ∉ c.residents ∧ c.freeSlots = free ++ [slot] ∧
      resolveToken (c, stats) token =
        ({ c with freeSlots := free, residents := c.residents.insert token slot },
          { stats with misses := stats.misses + 1, installs := stats.installs + 1 })) ∨
    (token ∉ c.residents ∧ c.freeSlots = [] ∧ resolveToken (c, stats) token =
      (c, { stats with misses := stats.misses + 1, shortages := stats.shortages + 1 })) := by
  by_cases htoken : token ∈ c.residents
  · exact Or.inl ⟨htoken, if_pos htoken⟩
  · rcases List.eq_nil_or_concat c.freeSlots with hfree | ⟨free, slot, hfree⟩
    · refine Or.inr (Or.inr ⟨htoken, hfree, ?_⟩)
      rw [resolveToken, if_neg htoken, hfree]
      rfl
    · rw [List.concat_eq_append] at hfree
      refine Or.inr (Or.inl ⟨free, slot, htoken, hfree, ?_⟩)
      rw [resolveToken, if_neg htoken, hfree, List.getLast?_concat, List.dropLast_concat]

/-- A query is counted as a hit exactly if its token is resident. -/
theorem resolveToken_hits (c : LRUManagedCache Token) (stats : QueryStats) (token : Token) :
    (resolveToken (c, stats) token).2.hits = stats.hits + 1 ↔ token ∈ c.residents := by
  rcases c.resolveToken_cases stats token with
    ⟨htoken, hstep⟩ | ⟨free, slot, htoken, _, hstep⟩ | ⟨htoken, _, hstep⟩
  · rw [hstep]
    exact iff_of_true rfl htoken
  · rw [hstep]
    exact iff_of_false (Nat.succ_ne_self _).symm htoken
  · rw [hstep]
    exact iff_of_false (Nat.succ_ne_self _).symm htoken

/-! ## No slot is lost -/

/-- The slots of the residents and the free ones are `0` to `total - 1`, each once. -/
structure Conserves (total : ℕ) (c : LRUManagedCache Token) : Prop where
  slots : (c.freeSlots ++ c.residents.values).Perm (List.range total)
  target_le : c.freeSlotTarget ≤ total

omit [DecidableEq Token] in
/-- Residents and free slots make up the pool. -/
theorem Conserves.count {total : ℕ} {c : LRUManagedCache Token} (h : c.Conserves total) :
    c.residentCount + c.freeSlots.length = total := by
  have hlen := h.slots.length_eq
  rw [List.length_append, OrderedDict.values, List.length_map, List.length_range] at hlen
  rw [Nat.add_comm]
  exact hlen

omit [DecidableEq Token] in
/-- A cache that the constructor accepts: empty, with all slots free. -/
theorem init_eq {totalSlots freeSlotTarget : ℤ} {c : LRUManagedCache Token}
    (h : init totalSlots freeSlotTarget = .ok c) :
    0 ≤ totalSlots ∧ 0 ≤ freeSlotTarget ∧ c = {
      freeSlotTarget := (min freeSlotTarget totalSlots).toNat
      freeSlots := (List.range totalSlots.toNat).reverse
      residents := .empty } := by
  unfold init at h
  split_ifs at h with htotal htarget
  refine ⟨by omega, by omega, ?_⟩
  cases h
  rfl

omit [DecidableEq Token] in
theorem conserves_init {totalSlots freeSlotTarget : ℤ} {c : LRUManagedCache Token}
    (h : init totalSlots freeSlotTarget = .ok c) : c.Conserves totalSlots.toNat := by
  obtain ⟨htotal, htarget, rfl⟩ := init_eq h
  refine ⟨?_, ?_⟩
  · show ((List.range totalSlots.toNat).reverse ++ []).Perm _
    rw [List.append_nil]
    exact List.reverse_perm _
  · show (min freeSlotTarget totalSlots).toNat ≤ totalSlots.toNat
    omega

omit [DecidableEq Token] in
theorem Conserves.prepare {total : ℕ} {c : LRUManagedCache Token} (h : c.Conserves total) :
    c.prepareFreeSlots.2.Conserves total := by
  obtain ⟨n, _, _, htarget, hfree, hresidents⟩ := c.prepareFreeSlots_spec
  refine ⟨?_, htarget ▸ h.target_le⟩
  have hvalues : (c.residents.entries.take n).map Prod.snd ++
      c.prepareFreeSlots.2.residents.values = c.residents.values := by
    rw [OrderedDict.values, hresidents, ← List.map_append, List.take_append_drop]
    rfl
  rw [hfree, List.append_assoc, hvalues]
  exact h.slots

/-- Resolving a token moves at most one slot, from the free ones to those of residents. -/
theorem Conserves.resolveToken {total : ℕ} {c : LRUManagedCache Token} (h : c.Conserves total)
    (stats : QueryStats) (token : Token) :
    (LRUManagedCache.resolveToken (c, stats) token).1.Conserves total := by
  rcases c.resolveToken_cases stats token with
    ⟨_, hstep⟩ | ⟨free, slot, htoken, hfree, hstep⟩ | ⟨_, _, hstep⟩
  · rw [hstep]
    refine ⟨?_, h.target_le⟩
    apply List.Perm.trans _ h.slots
    exact ((c.residents.moveToEnd_perm token).map Prod.snd).append_left _
  · rw [hstep]
    refine ⟨?_, h.target_le⟩
    -- the slot moves from the end of the free ones to the end of the residents'
    have hvalues : (c.residents.insert token slot).values = c.residents.values ++ [slot] := by
      rw [OrderedDict.values, OrderedDict.entries_insert htoken, List.map_append]
      rfl
    apply List.Perm.trans _ h.slots
    show (free ++ (c.residents.insert token slot).values).Perm (c.freeSlots ++ c.residents.values)
    rw [hvalues, hfree, List.append_assoc]
    exact List.perm_append_comm.append_left _
  · rw [hstep]
    exact h

/-- A property of the cache that every query keeps is kept by a list of queries. -/
theorem resolveQuery_induction {P : LRUManagedCache Token → QueryStats → Prop}
    (hstep : ∀ c stats token, P c stats →
      P (LRUManagedCache.resolveToken (c, stats) token).1 (LRUManagedCache.resolveToken (c, stats) token).2)
    {c : LRUManagedCache Token} (h : P c .zero) (tokens : List Token) :
    P (c.resolveQuery tokens).1 (c.resolveQuery tokens).2 := by
  unfold resolveQuery
  generalize QueryStats.zero = stats at h
  induction tokens generalizing c stats with
  | nil => exact h
  | cons token tokens ih => exact ih _ (hstep c stats token h)

theorem Conserves.resolveQuery {total : ℕ} {c : LRUManagedCache Token} (h : c.Conserves total)
    (tokens : List Token) : (c.resolveQuery tokens).1.Conserves total :=
  resolveQuery_induction (P := fun c _ => c.Conserves total)
    (fun _ stats token h => h.resolveToken stats token) h tokens

end LRUManagedCache

end AsuAscend.Simu
