/-
The pool as an ideal LRU cache.

In a run that records no shortage, what is resident after a `prepare_free_slots` are
the most recently queried tokens of the whole history, as many as the target leaves
room for, and between two such calls every queried token is resident.

## What is proved

`lru_refines_ideal` is about every sequence of the two operations on a new cache, for every number
of slots and every target, as long as no shortage has been recorded. The resident tokens are
tracked as a suffix of the history without repetitions: a query appends to both, and preparing
drops from the front of the one what is no longer recent in the other (`Tracks`). A query hits
exactly if its token is among those.

Shortages are what would break the suffix: a token without a slot is in the history and not in
the cache. They only go up (`shortages_le`), so that a run without any at its end had none on
the way.
-/
import AsuAscend.Lib.Recency
import AsuAscend.Simu.ManagedCache

set_option autoImplicit false

open Recency

namespace AsuAscend.Simu

inductive CacheCall (Token : Type)
  | prepare
  | resolve (tokens : List Token)

variable {Token : Type} [DecidableEq Token]

namespace LRUManagedCache

/-- One call, with the counts of all queries so far. -/
def call (s : LRUManagedCache Token × QueryStats) : CacheCall Token →
    LRUManagedCache Token × QueryStats
  | .prepare => (s.1.prepareFreeSlots.2, s.2)
  | .resolve tokens => ((s.1.resolveQuery tokens).1, s.2.add (s.1.resolveQuery tokens).2)

def run (c : LRUManagedCache Token) (calls : List (CacheCall Token)) :
    LRUManagedCache Token × QueryStats := calls.foldl call (c, .zero)

end LRUManagedCache

/-- The tokens of the calls, in the order in which they are queried. -/
def queried (calls : List (CacheCall Token)) : List Token :=
  calls.flatMap fun
    | .prepare => []
    | .resolve tokens => tokens

/-! ## The invariant -/

/-- The residents are the most recent tokens of the history, in the order of their last use,
and at least as many as there is always room for. -/
structure Tracks (total target : ℕ) (history : List Token) (c : LRUManagedCache Token) :
    Prop where
  conserves : c.Conserves total
  target_eq : c.freeSlotTarget = target
  suffix : c.residents.keys <:+ history.dedup
  enough : min history.dedup.length (total - target) ≤ c.residents.length

namespace LRUManagedCache

theorem tracks_init {totalSlots freeSlotTarget : ℤ} {c : LRUManagedCache Token}
    (h : init totalSlots freeSlotTarget = .ok c) :
    Tracks totalSlots.toNat (min freeSlotTarget totalSlots).toNat [] c := by
  obtain ⟨_, _, rfl⟩ := init_eq h
  exact ⟨conserves_init h, rfl, List.suffix_refl [], Nat.zero_min _ ▸ Nat.zero_le _⟩

end LRUManagedCache

variable {total target : ℕ} {history : List Token} {c : LRUManagedCache Token}

/-- One more use makes a token the last of the history, and of the residents. -/
theorem suffix_of_hit {keys : List Token} (h : keys <:+ history.dedup) {x : Token} (hx : x ∈ keys) :
    keys.erase x ++ [x] <:+ (history ++ [x]).dedup := by
  obtain ⟨front, hfront⟩ := h
  have hfresh : x ∉ front := by
    have hnodup := List.nodup_dedup history
    rw [← hfront] at hnodup
    exact fun hmem => (List.nodup_append.mp hnodup).2.2 x hmem x hx rfl
  refine ⟨front, ?_⟩
  rw [dedup_append_singleton, ← hfront, List.erase_append_right _ hfresh, List.append_assoc]

/-- A miss goes to the end of the keys, and of the history. -/
theorem suffix_of_miss {keys : List Token} (h : keys <:+ history.dedup) {x : Token} (hx : x ∉ keys) :
    keys ++ [x] <:+ (history ++ [x]).dedup := by
  obtain ⟨front, hfront⟩ := h
  rw [dedup_append_singleton, ← hfront, List.erase_append]
  split_ifs with hmem
  · exact ⟨front.erase x, by rw [List.append_assoc]⟩
  · exact ⟨front, by rw [List.erase_of_not_mem hx, List.append_assoc]⟩

/-- One use more is at most one token more. -/
theorem length_dedup_append_le (history : List Token) (x : Token) :
    (history ++ [x]).dedup.length ≤ history.dedup.length + 1 := by
  rw [dedup_append_singleton, List.length_append, List.length_singleton]
  exact Nat.add_le_add_right (List.length_erase_le) 1

/-- A query either records a shortage or keeps the invariant and adds its token to the
residents. -/
theorem Tracks.resolveToken (h : Tracks total target history c) (stats : QueryStats) (x : Token) :
    (LRUManagedCache.resolveToken (c, stats) x).2.shortages = stats.shortages + 1 ∨
    ((LRUManagedCache.resolveToken (c, stats) x).2.shortages = stats.shortages ∧
      Tracks total target (history ++ [x]) (LRUManagedCache.resolveToken (c, stats) x).1 ∧
      ∀ y, y ∈ (LRUManagedCache.resolveToken (c, stats) x).1.residents ↔ y ∈ c.residents ∨ y = x) := by
  have hconserves := h.conserves.resolveToken stats x
  rcases c.resolveToken_cases stats x with
    ⟨hx, hstep⟩ | ⟨free, slot, hx, hfree, hstep⟩ | ⟨_, _, hstep⟩
  · refine Or.inr ⟨by rw [hstep], ⟨hconserves, by rw [hstep]; exact h.target_eq, ?_, ?_⟩, ?_⟩
    · rw [hstep]
      show (c.residents.moveToEnd x).keys <:+ _
      rw [OrderedDict.keys_moveToEnd hx]
      exact suffix_of_hit h.suffix hx
    · rw [hstep]
      -- a resident token is in the history already
      have hmem : x ∈ history.dedup := h.suffix.subset hx
      have hlen : (history ++ [x]).dedup.length = history.dedup.length := by
        rw [dedup_append_singleton, List.length_append, List.length_erase_of_mem hmem,
          List.length_singleton, Nat.sub_add_cancel (List.length_pos_of_mem hmem)]
      have hsame : (c.residents.moveToEnd x).length = c.residents.length :=
        (c.residents.moveToEnd_perm x).length_eq
      show min _ (total - target) ≤ (c.residents.moveToEnd x).length
      rw [hlen, hsame]
      exact h.enough
    · intro y
      rw [hstep, OrderedDict.mem_moveToEnd]
      exact ⟨Or.inl, fun hy => hy.elim id fun hyx => hyx ▸ hx⟩
  · have hkeys := OrderedDict.keys_insert hx slot
    refine Or.inr ⟨by rw [hstep], ⟨hconserves, by rw [hstep]; exact h.target_eq, ?_, ?_⟩, ?_⟩
    · rw [hstep]
      show (c.residents.insert x slot).keys <:+ _
      rw [hkeys]
      exact suffix_of_miss h.suffix hx
    · rw [hstep]
      have hle := length_dedup_append_le history x
      have hlen : (c.residents.insert x slot).length = c.residents.length + 1 := by
        rw [OrderedDict.length, OrderedDict.entries_insert hx, List.length_append]
        rfl
      have henough := h.enough
      show min _ (total - target) ≤ (c.residents.insert x slot).length
      rw [hlen]
      omega
    · intro y
      rw [hstep, OrderedDict.mem_iff]
      show y ∈ (c.residents.insert x slot).keys ↔ _
      rw [hkeys, List.mem_append, List.mem_singleton]
      rfl
  · exact Or.inl (by rw [hstep])

/-- The shortages of a query only go up. -/
theorem shortages_le (s : LRUManagedCache Token × QueryStats) (tokens : List Token) :
    s.2.shortages ≤ (tokens.foldl LRUManagedCache.resolveToken s).2.shortages := by
  induction tokens generalizing s with
  | nil => exact Nat.le_refl _
  | cons x tokens ih =>
      refine le_trans ?_ (ih _)
      rcases s.1.resolveToken_cases s.2 x with ⟨_, hstep⟩ | ⟨_, _, _, _, hstep⟩ | ⟨_, _, hstep⟩
      · exact (congrArg (fun r => r.2.shortages) hstep).ge
      · exact (congrArg (fun r => r.2.shortages) hstep).ge
      · exact (Nat.le_succ _).trans (congrArg (fun r => r.2.shortages) hstep).ge

/-- A list of queries records a shortage, or keeps the invariant and makes all its tokens
resident. -/
theorem Tracks.foldl_resolveToken (h : Tracks total target history c) (stats : QueryStats)
    (tokens : List Token) :
    stats.shortages < (tokens.foldl LRUManagedCache.resolveToken (c, stats)).2.shortages ∨
    ((tokens.foldl LRUManagedCache.resolveToken (c, stats)).2.shortages = stats.shortages ∧
      Tracks total target (history ++ tokens) (tokens.foldl LRUManagedCache.resolveToken (c, stats)).1 ∧
      ∀ y, y ∈ (tokens.foldl LRUManagedCache.resolveToken (c, stats)).1.residents ↔
        y ∈ c.residents ∨ y ∈ tokens) := by
  induction tokens generalizing history c stats with
  | nil =>
      refine Or.inr ⟨rfl, ?_, fun y => (or_iff_left List.not_mem_nil).symm⟩
      rw [List.append_nil]
      exact h
  | cons x tokens ih =>
      rw [List.foldl_cons]
      rcases h.resolveToken stats x with hshort | ⟨hkept, hnext, hmem⟩
      · -- the counts never fall again
        have hmono := shortages_le (LRUManagedCache.resolveToken (c, stats) x) tokens
        exact Or.inl (by omega)
      · rcases ih hnext (LRUManagedCache.resolveToken (c, stats) x).2 with hshort | ⟨hkept', hend, hmem'⟩
        · exact Or.inl (by rw [← hkept]; exact hshort)
        · refine Or.inr ⟨hkept'.trans hkept, ?_, ?_⟩
          · rw [List.append_cons]
            exact hend
          · intro y
            rw [List.mem_cons, ← or_assoc, ← hmem y]
            exact hmem' y

/-! ## Whole runs -/

/-- The counts of shortages never fall. -/
theorem run_shortages_le (s : LRUManagedCache Token × QueryStats) (calls : List (CacheCall Token)) :
    s.2.shortages ≤ (calls.foldl LRUManagedCache.call s).2.shortages := by
  induction calls generalizing s with
  | nil => exact Nat.le_refl _
  | cons call calls ih =>
      refine le_trans ?_ (ih _)
      cases call with
      | prepare => exact Nat.le_refl _
      | resolve tokens => exact Nat.le_add_right _ _

/-- **Preparing** evicts the least recent tokens, and leaves as many as there is room for. -/
theorem Tracks.prepare (h : Tracks total target history c) :
    Tracks total target history c.prepareFreeSlots.2 ∧
      c.prepareFreeSlots.2.residents.length =
        min history.dedup.length (total - target) := by
  obtain ⟨n, hn, _, htarget, hfree, hresidents⟩ := c.prepareFreeSlots_spec
  -- the evicted tokens are the first `n`, that is, the least recent ones
  have hlen : c.prepareFreeSlots.2.residents.length = c.residents.length - n := by
    rw [OrderedDict.length, hresidents, List.length_drop]
    rfl
  have hcount := h.conserves.count
  have htotal := h.conserves.target_le
  have hle : c.residents.length ≤ history.dedup.length := by
    rw [← OrderedDict.length_keys]
    exact h.suffix.length_le
  have henough := h.enough
  rw [LRUManagedCache.residentCount] at hcount
  rw [h.target_eq] at hn htotal
  refine ⟨⟨h.conserves.prepare, htarget.trans h.target_eq, ?_, ?_⟩, ?_⟩
  · apply List.IsSuffix.trans _ h.suffix
    rw [OrderedDict.keys, hresidents, List.map_drop]
    exact List.drop_suffix _ _
  · rw [hlen]
    omega
  · rw [hlen]
    omega

omit [DecidableEq Token] in
/-- The tokens queried in a run of calls. -/
theorem queried_cons (call : CacheCall Token) (calls : List (CacheCall Token)) :
    queried (call :: calls) = queried [call] ++ queried calls := by
  unfold queried
  rw [List.flatMap_cons, List.flatMap_singleton]

/-- Calls that record no shortage keep the invariant; where no eviction comes between, all their
tokens are resident after them. -/
theorem Tracks.run (h : Tracks total target history c) (stats : QueryStats)
    (calls : List (CacheCall Token))
    (hshort : (calls.foldl LRUManagedCache.call (c, stats)).2.shortages = stats.shortages) :
    Tracks total target (history ++ queried calls) (calls.foldl LRUManagedCache.call (c, stats)).1 ∧
      (.prepare ∉ calls → ∀ y, y ∈ (calls.foldl LRUManagedCache.call (c, stats)).1.residents ↔
        y ∈ c.residents ∨ y ∈ queried calls) := by
  induction calls generalizing history c stats with
  | nil =>
      refine ⟨?_, fun _ y => (or_iff_left List.not_mem_nil).symm⟩
      rw [show queried ([] : List (CacheCall Token)) = [] from rfl, List.append_nil]
      exact h
  | cons call calls ih =>
      rw [List.foldl_cons] at hshort ⊢
      have hmono := run_shortages_le (LRUManagedCache.call (c, stats) call) calls
      rw [queried_cons, ← List.append_assoc]
      cases call with
      | prepare =>
          rw [show queried [(.prepare : CacheCall Token)] = [] from rfl, List.append_nil]
          refine ⟨(ih h.prepare.1 stats hshort).1, fun hnone => absurd List.mem_cons_self hnone⟩
      | resolve tokens =>
          rw [show queried [CacheCall.resolve tokens] = tokens from List.append_nil tokens]
          -- the shortages of a run only add up, so this call has none
          have hkept : (c.resolveQuery tokens).2.shortages = 0 := by
            have hadd : (LRUManagedCache.call (c, stats) (.resolve tokens)).2.shortages =
                stats.shortages + (c.resolveQuery tokens).2.shortages := rfl
            omega
          rcases h.foldl_resolveToken .zero tokens with hpos | ⟨_, hnext, hmem⟩
          · exact absurd hkept (Nat.ne_of_gt hpos)
          · have hshort' : (calls.foldl LRUManagedCache.call
                (LRUManagedCache.call (c, stats) (.resolve tokens))).2.shortages =
                (LRUManagedCache.call (c, stats) (.resolve tokens)).2.shortages := by
              rw [hshort]
              exact (Nat.add_eq_left.mpr hkept).symm
            obtain ⟨hend, hmem'⟩ := ih hnext _ hshort'
            refine ⟨hend, fun hnone y => ?_⟩
            rw [List.mem_append, ← or_assoc, ← hmem y]
            exact hmem' (fun hprepare => hnone (List.mem_cons_of_mem _ hprepare)) y

/-- Two runs of calls, one after the other. -/
theorem run_append (c : LRUManagedCache Token) (calls later : List (CacheCall Token)) :
    c.run (calls ++ later) = later.foldl LRUManagedCache.call (c.run calls) := List.foldl_append

/-- A beginning of a run without shortage has none. -/
theorem shortages_of_append {c : LRUManagedCache Token} {calls later : List (CacheCall Token)}
    (h : (c.run (calls ++ later)).2.shortages = 0) : (c.run calls).2.shortages = 0 := by
  rw [run_append] at h
  exact Nat.le_zero.mp (h ▸ run_shortages_le (c.run calls) later)

/-- In a run without shortage the residents after a `prepare_free_slots` are exactly the
`min d cap` most recently queried of the `d` distinct tokens. A query is a hit exactly if its
token was resident after the last such call, or at the start, or has been queried since: this
holds of any `start` with no such call in the `segment` after it. -/
theorem lru_refines_ideal {totalSlots freeSlotTarget : ℤ} {c : LRUManagedCache Token}
    (hinit : LRUManagedCache.init totalSlots freeSlotTarget = .ok c)
    {calls : List (CacheCall Token)} (hshort : (c.run calls).2.shortages = 0) :
    (∀ before later, calls = before ++ .prepare :: later → ∀ x,
      x ∈ (c.run (before ++ [.prepare])).1.residents ↔
        MostRecent (min (queried before).toFinset.card
          (totalSlots - min freeSlotTarget totalSlots).toNat) (queried before) x) ∧
    ∀ start segment pre x post later,
      calls = start ++ (segment ++ .resolve (pre ++ x :: post) :: later) →
      .prepare ∉ segment →
      ((LRUManagedCache.resolveToken ((c.run (start ++ segment)).1.resolveQuery pre) x).2.hits =
          ((c.run (start ++ segment)).1.resolveQuery pre).2.hits + 1 ↔
        x ∈ (c.run start).1.residents ∨ x ∈ queried segment ++ pre) := by
  obtain ⟨htotal, htarget, _⟩ := LRUManagedCache.init_eq hinit
  have htracks := LRUManagedCache.tracks_init hinit
  refine ⟨?_, ?_⟩
  · rintro before later rfl x
    have hbefore : (c.run before).2.shortages = 0 := shortages_of_append hshort
    have hrun := (htracks.run .zero before hbefore).1
    rw [List.nil_append] at hrun
    obtain ⟨hprepared, hlen⟩ := hrun.prepare
    have hcap : (totalSlots - min freeSlotTarget totalSlots).toNat =
        totalSlots.toNat - (min freeSlotTarget totalSlots).toNat := by omega
    have hlast : (c.run (before ++ [.prepare])).1 = (c.run before).1.prepareFreeSlots.2 := by
      rw [run_append]
      rfl
    rw [hlast, mostRecent_iff_mem_drop, hcap, List.card_toFinset]
    -- the residents are a suffix of the distinct tokens, and their number says which
    have hdrop := List.suffix_iff_eq_drop.mp hprepared.suffix
    rw [OrderedDict.length_keys, hlen] at hdrop
    rw [← hdrop]
    rfl
  · rintro start segment pre x post later rfl hnone
    have hstart : (c.run start).2.shortages = 0 := shortages_of_append hshort
    have hsegment : (c.run (start ++ segment)).2.shortages = 0 := by
      rw [← List.append_assoc] at hshort
      exact shortages_of_append hshort
    have hquery : (c.run (start ++ segment ++ [.resolve (pre ++ x :: post)])).2.shortages = 0 := by
      rw [← List.append_assoc, List.append_cons] at hshort
      exact shortages_of_append hshort
    -- the queries before `x` in its call find slots too
    have hpre : ((c.run (start ++ segment)).1.resolveQuery pre).2.shortages = 0 := by
      rw [run_append] at hquery
      have hadd : ((c.run (start ++ segment)).1.resolveQuery (pre ++ x :: post)).2.shortages = 0 :=
        (Nat.add_eq_zero_iff.mp hquery).2
      unfold LRUManagedCache.resolveQuery at hadd ⊢
      rw [List.foldl_append] at hadd
      exact Nat.le_zero.mp (hadd ▸ shortages_le _ (x :: post))
    have hat : Tracks _ _ _ (c.run start).1 := (htracks.run .zero start hstart).1
    have hfrom : (segment.foldl LRUManagedCache.call ((c.run start).1, (c.run start).2)).2.shortages =
        (c.run start).2.shortages := by
      rw [hstart]
      rw [run_append] at hsegment
      exact hsegment
    obtain ⟨htracked, hmem⟩ := hat.run (c.run start).2 segment hfrom
    rw [Prod.mk.eta, ← run_append] at htracked hmem
    rcases htracked.foldl_resolveToken .zero pre with hpos | ⟨_, _, hmem'⟩
    · exact absurd hpre (Nat.ne_of_gt hpos)
    · have hresident : x ∈ ((c.run (start ++ segment)).1.resolveQuery pre).1.residents ↔
          x ∈ (c.run start).1.residents ∨ x ∈ queried segment ++ pre := by
        rw [List.mem_append, ← or_assoc, ← hmem hnone x]
        exact hmem' x
      rw [← hresident]
      exact LRUManagedCache.resolveToken_hits _ _ x

/-- Two slots of which one is kept free: after two queries the later token is resident. -/
def twoSlots : LRUManagedCache TokenKey := ⟨1, [1, 0], .empty⟩

/-- Two slots: after preparing for one free slot the more recent token is left. -/
theorem lru_refines_ideal_two_slots :
    ((0, 8) : TokenKey) ∈ (twoSlots.run [.resolve [(0, 7), (0, 8)], .prepare]).1.residents ↔
      MostRecent 1 [(0, 7), (0, 8)] ((0, 8) : TokenKey) := by
  have hinit : LRUManagedCache.init 2 1 = .ok twoSlots := rfl
  have hshort : (twoSlots.run [.resolve [(0, 7), (0, 8)], .prepare]).2.shortages = 0 := rfl
  exact (lru_refines_ideal hinit hshort).1 [.resolve [(0, 7), (0, 8)]] [] rfl (0, 8)

end AsuAscend.Simu
