/-
What a resolver call that raises leaves behind.

`_install_token_to_managed_cache` pops a slot first and checks the rows of the copy after
that, so that a row out of range costs the pool a slot: it is neither free nor anybody's.
Every other exception leaves the pool in order (`resolve_error_sound_iff`). Which token a
call fails at, and on which check, is read off the context before the call: the `j`-th new
token of the call would get the `j`-th slot from the top of the stack.

## Read off the context before

`newTokens` are the tokens of a prefix of the query that are not resident, each once: they are the
ones the call installs. The `j`-th of them takes the `j`-th slot from the top of the stack
(`Context.slotAt`), and neither the entries of the stack nor the lengths of the caches change in
between (`Progress`). So whether a call comes to an entry that it cannot copy can
be said without running it, and that is `LosesSlot`.

`raises_at` finds the entry at which a raising call stops, with the entries before it answered.
-/
import AsuAscend.Decode.Turns

set_option autoImplicit false

open SentinelTable StateExcept

namespace AsuAscend.Decode

variable {α β : Type}

/-! ## What should be left -/

/-- The pool is in order after a call: no slot is lost, resident tokens have kept their slots
and data, and the tokens that have become resident have theirs copied. -/
structure StillSound (src : Source α β) (block_size : ℕ) (c c' : Context α β) : Prop where
  pool : Pool c'
  free : ∀ s ∈ freeSlots c, s ∈ freeSlots c' ∨ ∃ t, Resident c' t ∧ read c'.hbm_slot_of_token t = s
  kept : ∀ t, Resident c t → Resident c' t ∧
    read c'.hbm_slot_of_token t = read c.hbm_slot_of_token t ∧
    SameSlot c c' (read c.hbm_slot_of_token t).toNat
  copied : ∀ t, Resident c' t → ¬ Resident c t → ∃ slot row : ℕ,
    read c'.hbm_slot_of_token t = slot ∧ sourceSlot c src block_size t = some (row : ℤ) ∧
    HoldsRow c' slot src row

/-! ## When a slot is lost -/

/-- The tokens that need a slot, in the order in which they first appear. -/
def newTokens (c : Context α β) (topk : List ℤ) : List ℕ :=
  topk.foldl (fun tokens t =>
    if Resident c t.toNat ∨ t.toNat ∈ tokens then tokens else tokens ++ [t.toNat]) []

/-- The `j`-th slot from the top of the free stack. -/
def Context.slotAt (c : Context α β) (j : ℕ) : ℤ :=
  read c.free_slot_stack (c.free_slot_count - 1 - j).toNat

section

variable (c : Context α β) (src : Source α β) (n : ℤ) (block_size : ℕ)

/-- The token gets an answer after those of `pre`: it has a slot by then, or there is one left
and its row can be copied there. -/
def Answerable (pre : List ℤ) (t : ℤ) : Prop :=
  InTables c n t ∧ (Resident c t.toNat ∨ t.toNat ∈ newTokens c pre ∨
    ((newTokens c pre).length : ℤ) < c.free_slot_count ∧
      ∃ row, sourceSlot c src block_size t.toNat = some row ∧
        Copies c src row (c.slotAt (newTokens c pre).length))

def Answered (topk : List ℤ) : Prop :=
  ∀ pre t post, topk = pre ++ t :: post → Answerable c src n block_size pre t

/-- The token needs a slot and there is one left, but its row or the slot is out of range of
the caches. -/
structure Overruns (pre : List ℤ) (t : ℤ) : Prop where
  in_tables : InTables c n t
  unseen : t.toNat ∉ newTokens c pre
  slot_left : ((newTokens c pre).length : ℤ) < c.free_slot_count
  no_copy : ∃ row, sourceSlot c src block_size t.toNat = some row ∧
    ¬ Copies c src row (c.slotAt (newTokens c pre).length)

/-- The call comes to a token whose row cannot be copied. -/
def LosesSlot (topk : List ℤ) : Prop :=
  0 ≤ n ∧ 0 < block_size ∧ ∃ pre t post, topk = pre ++ t :: post ∧
    Answered c src n block_size pre ∧ Overruns c src n block_size pre t

end

section

variable {c c1 : Context α β} {src : Source α β} {n t : ℤ} {block_size : ℕ} {pre : List ℤ}

/-- One entry more is new unless it is resident or came up before. -/
theorem newTokens_append (pre : List ℤ) (t : ℤ) : newTokens c (pre ++ [t]) =
    if Resident c t.toNat ∨ t.toNat ∈ newTokens c pre then newTokens c pre
    else newTokens c pre ++ [t.toNat] := by
  unfold newTokens
  rw [List.foldl_append]
  rfl

/-- An entry that overruns has no answer: it is new, and its row cannot be copied. -/
theorem Overruns.not_answerable (h : Overruns c src n block_size pre t) :
    ¬ Answerable c src n block_size pre t := by
  rintro ⟨-, hres | hseen | ⟨-, row, hrow, hcopies⟩⟩
  · obtain ⟨row, hrow, -⟩ := h.no_copy
    exact sourceSlot_not_resident hrow hres
  · exact h.unseen hseen
  · obtain ⟨row', hrow', hno⟩ := h.no_copy
    rw [hrow] at hrow'
    cases hrow'
    exact hno hcopies

/-- All entries have an answer if the first ones have and the last has. -/
theorem answered_append : Answered c src n block_size (pre ++ [t]) ↔
    Answered c src n block_size pre ∧ Answerable c src n block_size pre t := by
  constructor
  · intro h
    refine ⟨fun p u post hpre => h p u (post ++ [t]) ?_, h pre t [] rfl⟩
    rw [hpre, List.append_assoc, List.cons_append]
  · -- an entry of the longer call is its last one or one of `pre`
    rintro ⟨h, ht⟩ p u post heq
    rcases List.eq_nil_or_concat post with rfl | ⟨post, v, rfl⟩
    · obtain ⟨rfl, hu⟩ := List.append_inj' heq rfl
      cases hu
      exact ht
    · rw [List.concat_eq_append, ← List.cons_append, ← List.append_assoc] at heq
      exact h p u post (List.append_inj' heq rfl).1

/-- The first token without an answer. -/
theorem answered_or_first (c : Context α β) (src : Source α β) (n : ℤ) (block_size : ℕ)
    (topk : List ℤ) : Answered c src n block_size topk ∨
    ∃ pre t post, topk = pre ++ t :: post ∧ Answered c src n block_size pre ∧
      ¬ Answerable c src n block_size pre t := by
  induction topk using List.reverseRecOn with
  | nil =>
      refine Or.inl fun pre t post heq => ?_
      cases pre <;> cases heq
  | append_singleton topk u ih =>
      rcases ih with h | ⟨pre, t, post, rfl, hpre, ht⟩
      · by_cases hu : Answerable c src n block_size topk u
        · exact Or.inl (answered_append.mpr ⟨h, hu⟩)
        · exact Or.inr ⟨topk, u, [], rfl, h, hu⟩
      · exact Or.inr ⟨pre, t, post ++ [u], by rw [List.append_assoc, List.cons_append], hpre, ht⟩

/-! ## A lost slot -/

/-- Without the slot on top of its stack a pool is not one. -/
theorem Pool.not_popped (hc : Tabled c) (h : Pool c) (hpos : 0 < c.free_slot_count) :
    ¬ Pool c.popped := by
  intro hpool
  obtain ⟨slot, hslot, hslotlt⟩ := h.top_slot hc hpos
  have hpop : freeSlots c = freeSlots c.popped ++ [(slot : ℤ)] :=
    freeSlots_pop hc h ⟨[], [], []⟩ 0 0 hpos hslot
  have hnd := h.free_nodup
  rw [hpop, List.nodup_append] at hnd
  -- the slot is no longer free, and it was free before, so it is no resident's either
  rcases hpool.covered slot hslotlt with hmem | ⟨t, ht, heq⟩
  · exact hnd.2.2 _ hmem _ (List.mem_singleton_self _) rfl
  · refine h.disjoint t ht ?_
    have heq : read c.hbm_slot_of_token t = (slot : ℤ) := heq
    rw [heq, hpop]
    exact List.mem_append_right _ (List.mem_singleton_self _)

/-! ## Along the call -/

theorem StillSound.refl (hp : Pool c) : StillSound src block_size c c where
  pool := hp
  free _ hs := Or.inl hs
  kept _ ht := ⟨ht, rfl, rfl, rfl⟩
  copied _ ht hnew := absurd ht hnew

/-- The context `c1` after the tokens of `pre` have had their answers. -/
structure Progress (c : Context α β) (src : Source α β) (block_size : ℕ) (pre : List ℤ)
    (c1 : Context α β) : Prop where
  tabled : Tabled c1
  sound : StillSound src block_size c c1
  count : c1.free_slot_count = c.free_slot_count - (newTokens c pre).length
  stack : c1.free_slot_stack = c.free_slot_stack
  addr : c1.asu_record_addr = c.asu_record_addr
  max_len : c1.max_seq_len = c.max_seq_len
  cache_0_length : c1.managed_kv_cache_0.length = c.managed_kv_cache_0.length
  cache_1_length : c1.managed_kv_cache_1.length = c.managed_kv_cache_1.length
  resident : ∀ t, Resident c1 t ↔ Resident c t ∨ t ∈ newTokens c pre
  state : ∀ t, t ∉ newTokens c pre → read c1.token_state t = read c.token_state t

theorem Progress.nil (hc : Tabled c) (hp : Pool c) : Progress c src block_size [] c where
  tabled := hc
  sound := StillSound.refl hp
  count := (Int.sub_zero _).symm
  stack := rfl
  addr := rfl
  max_len := rfl
  cache_0_length := rfl
  cache_1_length := rfl
  resident _ := ⟨Or.inl, fun h => h.resolve_right List.not_mem_nil⟩
  state _ _ := rfl

/-- The next slot to be handed out is counted from the top of the stack before the call. -/
theorem Progress.top (h : Progress c src block_size pre c1) :
    c1.top = c.slotAt (newTokens c pre).length := by
  unfold Context.top Context.slotAt
  rw [h.stack, h.count]
  congr 2
  omega

/-- The bounds of the tables are those before the call. -/
theorem Progress.inTables (h : Progress c src block_size pre c1) :
    InTables c1 n t ↔ InTables c n t := by
  constructor
  · exact fun ⟨h1, h2, h3⟩ => ⟨h1, h2, h.max_len ▸ h3⟩
  · exact fun ⟨h1, h2, h3⟩ => ⟨h1, h2, h.max_len.symm ▸ h3⟩

/-- The row of a token that is still to come is the one it had before the call. -/
theorem Progress.sourceSlot (h : Progress c src block_size pre c1) {u : ℕ}
    (hu : u ∉ newTokens c pre) :
    sourceSlot c1 src block_size u = sourceSlot c src block_size u := by
  unfold Decode.sourceSlot
  rw [h.state u hu, h.addr]

/-- So are the conditions of a copy; the lengths of the caches stay. -/
theorem Progress.copies (h : Progress c src block_size pre c1) {row slot : ℤ} :
    Copies c1 src row slot ↔ Copies c src row slot := by
  have h_0 := h.cache_0_length
  have h_1 := h.cache_1_length
  constructor
  · exact fun ⟨h1, h2, h3, h4, h5, h6⟩ => ⟨h1, h2, h3, h4, by omega, by omega⟩
  · exact fun ⟨h1, h2, h3, h4, h5, h6⟩ => ⟨h1, h2, h3, h4, by omega, by omega⟩

/-- A token that has its slot already adds nothing. -/
theorem Progress.seen (h : Progress c src block_size pre c1)
    (ht : Resident c t.toNat ∨ t.toNat ∈ newTokens c pre) :
    Progress c src block_size (pre ++ [t]) c1 := by
  have heq : newTokens c (pre ++ [t]) = newTokens c pre := by
    rw [newTokens_append, if_pos ht]
  obtain ⟨h1, h2, h3, h4, h5, h6, h7, h8, h9, h10⟩ := h
  exact ⟨h1, h2, heq ▸ h3, h4, h5, h6, h7, h8, heq ▸ h9, heq ▸ h10⟩

/-- Installing one token more keeps the context sound. -/
theorem StillSound.installed (h : StillSound src block_size c c1) (hc : Tabled c1) {u row slot : ℕ}
    (hu : u < c1.max_seq_len) (hnew : ¬ Resident c1 u)
    (hrow : sourceSlot c src block_size u = some (row : ℤ)) (hpos : 0 < c1.free_slot_count)
    (hslot : c1.top = slot) (hcopies : Copies c1 src row slot) :
    StillSound src block_size c (c1.installed src u row slot) := by
  -- the tokens that were resident before are not the new one
  have hother : ∀ t, Resident c1 t → t ≠ u := by
    rintro t ht rfl
    exact hnew ht
  have hkept : ∀ t, Resident c1 t → _ := fun t ht =>
    installed_kept hc h.pool src hu hpos hslot hcopies ht (hother t ht)
  constructor
  · exact h.pool.installed hc hu hnew hpos hslot
  · intro s hs
    rcases h.free s hs with hfree | ⟨t, ht, heq⟩
    · -- still free, or just taken by `u`
      rw [freeSlots_pop hc h.pool src u row hpos hslot] at hfree
      rcases List.mem_append.mp hfree with hfree | hfree
      · exact Or.inl hfree
      · refine Or.inr ⟨u, (installed_resident hc hu).mpr (Or.inl rfl), ?_⟩
        rw [installed_slot hc hu, if_pos rfl, List.mem_singleton.mp hfree]
    · obtain ⟨hres, hsame, -⟩ := hkept t ht
      exact Or.inr ⟨t, hres, hsame.trans heq⟩
  -- a resident token of the start keeps its slot, and the slot its rows
  · intro t ht
    obtain ⟨ht1, hslot1, hrows1⟩ := h.kept t ht
    obtain ⟨ht2, hslot2, hrows2⟩ := hkept t ht1
    rw [hslot1] at hrows2
    exact ⟨ht2, hslot2.trans hslot1, hrows2.1.trans hrows1.1, hrows2.2.trans hrows1.2⟩
  -- a token that came in during the call has been copied to its slot
  · intro t ht hold
    rcases (installed_resident hc hu).mp ht with rfl | ht1
    · refine ⟨slot, row, ?_, hrow, installed_holds hcopies⟩
      rw [installed_slot hc hu, if_pos rfl]
    · obtain ⟨slot', row', hslot', hrow', x, y, hx, hy, hx', hy'⟩ := h.copied t ht1 hold
      obtain ⟨-, hslot2, hrows2⟩ := hkept t ht1
      rw [hslot', Int.toNat_natCast] at hrows2
      exact ⟨slot', row', hslot2.trans hslot', hrow', x, y, hx, hy, hrows2.1.trans hx',
        hrows2.2.trans hy'⟩

theorem Progress.installed (h : Progress c src block_size pre c1) {row slot : ℕ}
    (hin : InTables c1 n t) (hrow : Decode.sourceSlot c1 src block_size t.toNat = some (row : ℤ))
    (hpos : 0 < c1.free_slot_count) (hslot : c1.top = slot) (hcopies : Copies c1 src row slot) :
    Progress c src block_size (pre ++ [t]) (c1.installed src t.toNat row slot) := by
  have hmax : t.toNat < c1.max_seq_len := by
    have := hin.nonneg
    have := hin.lt_max
    omega
  -- the token was not resident, so it has not come up in this call
  have hnew := sourceSlot_not_resident hrow
  have hunseen : ¬ (Resident c t.toNat ∨ t.toNat ∈ newTokens c pre) := fun hseen =>
    hnew ((h.resident _).mpr hseen)
  have hrow' := (h.sourceSlot fun hmem => hunseen (Or.inr hmem)).symm.trans hrow
  -- it is one more new token
  have htokens : newTokens c (pre ++ [t]) = newTokens c pre ++ [t.toNat] := by
    rw [newTokens_append, if_neg hunseen]
  have hlength : ∀ {γ : Type} (dst rows : List γ),
      (copyRow dst slot rows row).length = dst.length := fun dst rows => copyRow_length dst slot rows row
  constructor
  · exact h.tabled.installed
  · exact h.sound.installed h.tabled hmax hnew hrow' hpos hslot hcopies
  · have hcount := h.count
    show c1.free_slot_count - 1 = _
    rw [htokens, List.length_append, List.length_singleton]
    omega
  · exact h.stack
  · exact h.addr
  · exact h.max_len
  · exact (hlength _ _).trans h.cache_0_length
  · exact (hlength _ _).trans h.cache_1_length
  · intro u
    rw [installed_resident h.tabled hmax, h.resident, htokens, List.mem_append, List.mem_singleton]
    tauto
  · intro u hu
    rw [htokens, List.mem_append, List.mem_singleton, not_or] at hu
    rw [installed_state h.tabled hmax, if_neg hu.2, h.state u hu.1]

/-- **One token more**: it has its answer, or loses a slot, or raises and changes nothing. -/
theorem Progress.turn (h : Progress c src block_size pre c1) (n t : ℤ) :
    (Answerable c src n block_size pre t ∧ ∃ s c2, resolveToken src n block_size t c1 = .ok s c2 ∧
      Progress c src block_size (pre ++ [t]) c2) ∨
    (Overruns c src n block_size pre t ∧ 0 < c1.free_slot_count ∧
      ∃ e, resolveToken src n block_size t c1 = .error e c1.popped) ∨
    (¬ Answerable c src n block_size pre t ∧ ¬ Overruns c src n block_size pre t ∧
      ∃ e, resolveToken src n block_size t c1 = .error e c1) := by
  have hturn := resolveToken_turn h.tabled h.sound.pool src n block_size t
  have hcount := h.count
  generalize hr : resolveToken src n block_size t c1 = r at hturn
  cases hturn with
  | refused e hrefused =>
      -- read back at `c`: neither an answer nor a copy could have come about
      rw [h.inTables, h.resident, not_or, hcount] at hrefused
      refine Or.inr (Or.inr ⟨?_, ?_, e, rfl⟩)
      · rintro ⟨hin, hres | hseen | ⟨hleft, row, hrow, -⟩⟩
        · exact (hrefused.resolve_left (not_not_intro hin)).1.1 hres
        · exact (hrefused.resolve_left (not_not_intro hin)).1.2 hseen
        · obtain ⟨⟨-, hseen⟩, hnone | hle⟩ := hrefused.resolve_left (not_not_intro hin)
          · rw [h.sourceSlot hseen, hrow] at hnone
            cases hnone
          · omega
      · rintro ⟨hin, hseen, hleft, row, hrow, -⟩
        obtain ⟨-, hnone | hle⟩ := hrefused.resolve_left (not_not_intro hin)
        · rw [h.sourceSlot hseen, hrow] at hnone
          cases hnone
        · omega
  | resident hin hres =>
      have hseen := (h.resident _).mp hres
      exact Or.inl ⟨⟨h.inTables.mp hin, hseen.imp_right Or.inl⟩, _, _, rfl, h.seen hseen⟩
  | @lost e row hin hrow hpos hcopies =>
      have hunseen : t.toNat ∉ newTokens c pre := fun hmem =>
        sourceSlot_not_resident hrow ((h.resident _).mpr (Or.inr hmem))
      rw [h.sourceSlot hunseen] at hrow
      rw [h.top, h.copies] at hcopies
      exact Or.inr (Or.inl ⟨⟨h.inTables.mp hin, hunseen, by omega, row, hrow, hcopies⟩, hpos, e, rfl⟩)
  | @installed row slot hin hrow hpos hslot hcopies =>
      have hunseen : t.toNat ∉ newTokens c pre := fun hmem =>
        sourceSlot_not_resident hrow ((h.resident _).mpr (Or.inr hmem))
      refine Or.inl ⟨⟨h.inTables.mp hin, Or.inr (Or.inr ⟨by omega, row, ?_, ?_⟩)⟩, _, _, rfl,
        h.installed hin hrow hpos hslot hcopies⟩
      · rw [← h.sourceSlot hunseen, hrow]
      · rw [← h.top, hslot, ← h.copies]
        exact hcopies

/-- A call whose tokens all have an answer returns. -/
theorem answered_run (hc : Tabled c) (hp : Pool c) {topk : List ℤ}
    (h : Answered c src n block_size topk) :
    ∃ slots c1, topk.mapM (resolveToken src n block_size) c = .ok slots c1 ∧
      Progress c src block_size topk c1 := by
  induction topk using List.reverseRecOn with
  | nil => exact ⟨[], c, rfl, Progress.nil hc hp⟩
  | append_singleton topk t ih =>
      obtain ⟨htopk, ht⟩ := answered_append.mp h
      obtain ⟨slots, c1, hrun, hprogress⟩ := ih htopk
      rcases hprogress.turn n t with ⟨-, s, c2, hturn, h2⟩ | ⟨hover, -⟩ | ⟨hno, -⟩
      · exact ⟨slots ++ [s], c2, mapM_append_ok hrun hturn, h2⟩
      · exact absurd ht hover.not_answerable
      · exact absurd ht hno

end

/-! ## Calls that raise -/

/-- A call that raises and loses no slot: up to the entry it raises at, every one has had its
answer, and that entry has left the context alone. -/
theorem raises_at {c c' : Context α β} (hc : Tabled c) (hp : Pool c) {src : Source α β}
    {topk : List ℤ} {n : ℤ} {block_size : ℕ} {e : PyError} (hargs : 0 ≤ n ∧ 0 < block_size)
    (hlost : ¬ LosesSlot c src n block_size topk)
    (herr : topk.mapM (resolveToken src n block_size) c = .error e c') :
    ∃ pre t post slots, topk = pre ++ t :: post ∧
      pre.mapM (resolveToken src n block_size) c = .ok slots c' ∧
      resolveToken src n block_size t c' = .error e c' ∧ Progress c src block_size pre c' := by
  rcases answered_or_first c src n block_size topk with hall | ⟨pre, t, post, rfl, hpre, ht⟩
  · obtain ⟨slots, c1, hrun, -⟩ := answered_run hc hp hall
    rw [hrun] at herr
    cases herr
  · obtain ⟨slots, c1, hrun, hprogress⟩ := answered_run hc hp hpre
    rcases hprogress.turn n t with ⟨hanswer, -⟩ | ⟨hover, -⟩ | ⟨-, -, e', he⟩
    · exact absurd hanswer ht
    · exact absurd ⟨hargs.1, hargs.2, pre, t, post, rfl, hpre, hover⟩ hlost
    · rw [mapM_append_error hrun he] at herr
      cases herr
      exact ⟨pre, t, post, slots, rfl, hrun, he, hprogress⟩

/-- **A call that raises** leaves the pool in order unless it comes to a token whose row or slot
is out of range of the caches: then the slot it has taken is lost. -/
theorem resolve_error_sound_iff {c : Context α β} (hc : Tabled c) (hp : Pool c) (src : Source α β)
    (topk : List ℤ) (n : ℤ) (block_size : ℕ) :
    (∀ e c', asuResolveKvSlotsSingleReq src topk n block_size c = .error e c' →
      StillSound src block_size c c') ↔ ¬ LosesSlot c src n block_size topk := by
  by_cases hargs : 0 ≤ n ∧ 0 < block_size
  · have hcall : asuResolveKvSlotsSingleReq src topk n block_size =
        topk.mapM (resolveToken src n block_size) := by
      unfold asuResolveKvSlotsSingleReq
      rw [if_neg (by omega), if_neg (by omega)]
    rw [hcall]
    constructor
    · rintro hsound ⟨-, -, pre, t, post, rfl, hpre, hover⟩
      obtain ⟨slots, c1, hrun, hprogress⟩ := answered_run hc hp hpre
      rcases hprogress.turn n t with ⟨hanswer, -⟩ | ⟨-, hpos, e, he⟩ | ⟨-, hno, -⟩
      · exact hover.not_answerable hanswer
      · exact hprogress.sound.pool.not_popped hprogress.tabled hpos
          (hsound _ _ (mapM_append_error hrun he)).pool
      · exact hno hover
    · intro hlost e c' herr
      obtain ⟨pre, t, post, slots, -, -, -, hprogress⟩ := raises_at hc hp hargs hlost herr
      exact hprogress.sound
  · -- the two argument checks stand before the loop
    refine iff_of_true ?_ fun h => hargs ⟨h.1, h.2.1⟩
    intro e c' herr
    unfold asuResolveKvSlotsSingleReq at herr
    split_ifs at herr with h1 h2
    · cases herr
      exact StillSound.refl hp
    · cases herr
      exact StillSound.refl hp
    · omega

/-- The second token is outside the sequence: the call raises after it has installed the first
one, and the pool is in order. -/
theorem resolve_error_sound_first :
    (∃ e c', asuResolveKvSlotsSingleReq ⟨[0], [7], [8]⟩ [0, 1] 1 1
      ((freshContext 1 1 [0] [0] : Context ℕ ℕ).reset "req" 1 1 [0]) = .error e c' ∧ Resident c' 0) ∧
    ∀ e c', asuResolveKvSlotsSingleReq ⟨[0], [7], [8]⟩ [0, 1] 1 1
      ((freshContext 1 1 [0] [0] : Context ℕ ℕ).reset "req" 1 1 [0]) = .error e c' →
        StillSound ⟨[0], [7], [8]⟩ 1 ((freshContext 1 1 [0] [0]).reset "req" 1 1 [0]) c' := by
  refine ⟨⟨_, _, rfl, rfl⟩, (resolve_error_sound_iff freshContext_tabled.reset
    (Pool.reset freshContext_tabled) _ _ _ _).mpr ?_⟩
  rintro ⟨-, -, pre, t, post, heq, -, hover⟩
  rcases pre with _ | ⟨u, pre⟩
  · cases heq
    obtain ⟨row, hrow, hno⟩ := hover.no_copy
    cases hrow
    exact hno ⟨by decide, by decide, by decide, by decide, by decide, by decide⟩
  · injection heq with hu heq
    rcases pre with _ | ⟨u', pre⟩
    · cases heq
      exact absurd hover.in_tables.lt_len (by decide)
    · injection heq with hu' heq
      cases pre <;> cases heq

/-- The block table names a block past the end of the paged cache: the call raises, and the
slot it had taken is lost. -/
theorem slot_lost :
    Pool ((freshContext 1 1 [0] [0] : Context ℕ ℕ).reset "req" 1 1 [5]) ∧
    ∃ e c', asuResolveKvSlotsSingleReq ⟨[5], [7], [8]⟩ [0] 1 1
      ((freshContext 1 1 [0] [0] : Context ℕ ℕ).reset "req" 1 1 [5]) = .error e c' ∧ ¬ Pool c' := by
  have hpool : Pool ((freshContext 1 1 [0] [0] : Context ℕ ℕ).reset "req" 1 1 [5]) :=
    Pool.reset freshContext_tabled
  exact ⟨hpool, _, _, rfl, hpool.not_popped freshContext_tabled.reset (by decide)⟩

end AsuAscend.Decode
