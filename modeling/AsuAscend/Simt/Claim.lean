/-
The claim phase, the one phase in which threads race.

Every thread resolves its own query positions against the shared table, and a
missing token is claimed by whichever compare-and-swap lands first. The ghost
state `Owners` records who won. `ClaimInv` holds after every access; a thread may
assume of the others (`Keeps`) that owners stay owners, that nobody else becomes
the owner at one of its positions, and that hit flags stay set. At the barrier
every position is resolved (`Resolved`), so the owners are a `Selector` and the
memory is that of the scan which reports each miss at its owner
(`claim_outcome`).

## Rely and guarantee

A cell that several threads write has no owner, so the phase is not race-free and single assignment
does not apply. What helps is that each query position belongs to one thread, and that an access is
about one position: it meets the invariant again and leaves every other position alone
(`claiming_move`). From this each thread proves its own loop as if it ran alone, with the steps of
the others in between summed up in `Keeps`, which is reflexive and transitive.

A compare-and-swap that fails has found either a slot or `CLAIMING`. In the second case the winner
is known to the ghost state already, and it stays the winner: that is all that a loser needs.
-/
import AsuAscend.Lookup.Selector
import AsuAscend.Simt.Partition

set_option autoImplicit false

open Function (update)
open BarrierThreads MachineWords WorkSplit SentinelTable AsuAscend.Lookup

namespace AsuAscend.Simt

/-- The query position that owns a token, by table index. -/
abbrev Owners := ℕ → Option ℕ

variable {d : Sizes} {s : LookupState} {query : List ℤ} {m1 : Store}

/-! ## The contract -/

/-- What every access of the phase keeps. -/
structure ClaimInv (d : Sizes) (s : LookupState) (query : List ℤ) (g : Owners) (m : Store) : Prop
    where
  fwd : ∀ i < d.INDEX_SIZE, m (.token_to_slot i) =
    some (if (g i).isSome then CLAIMING else read s.token_to_slot i)
  owner : ∀ i p, g i = some p → p < d.QUERY_COUNT ∧ read query p = i ∧ Missing s (i : ℤ)
  flag : ∀ v < d.SLOT_COUNT, m (.hit_flags v) = some 0 ∨ m (.hit_flags v) = some 1 ∧
    ∃ t ∈ query, Resident s t ∧ read s.token_to_slot t.toNat = v
  bwd : ∀ v < d.SLOT_COUNT, m (.slot_to_token v) = some (read s.slot_to_token v)
  lru : ∀ p < d.SLOT_COUNT, m (.lru_slots p) = some (read s.lru_slots p)
  row : ∀ p < d.QUERY_COUNT, m (.query_token_ids p) = some (read query p)

/-- What an access that is not about query position `q` leaves alone. -/
structure Keeps (q : ℕ) (st st' : Owners × Store) : Prop where
  owners : ∀ i p, st.1 i = some p → st'.1 i = some p
  flags : ∀ v, st.2 (.hit_flags v) = some 1 → st'.2 (.hit_flags v) = some 1
  mine : ∀ i, st'.1 i = some q → st.1 i = some q
  ids : st'.2 (.slot_ids q) = st.2 (.slot_ids q)
  mask : st'.2 (.miss_mask q) = st.2 (.miss_mask q)

theorem Keeps.refl (q : ℕ) (st : Owners × Store) : Keeps q st st :=
  ⟨fun _ _ h => h, fun _ h => h, fun _ h => h, rfl, rfl⟩

/-- What several threads do keeps a position's part if each of them does. -/
theorem Keeps.trans {q : ℕ} {st st' st'' : Owners × Store} (h : Keeps q st st')
    (h' : Keeps q st' st'') : Keeps q st st'' where
  owners := fun i p hp => h'.owners i p (h.owners i p hp)
  flags := fun v hv => h'.flags v (h.flags v hv)
  mine := fun i hi => h.mine i (h'.mine i hi)
  ids := h'.ids.trans h.ids
  mask := h'.mask.trans h.mask

/-- The query positions of a thread. -/
def positions (d : Sizes) (t : ℕ) : List ℕ := gridStride t d.QUERY_COUNT d.SIMT_THREADS

/-- The contract of the claim phase. -/
def claiming (d : Sizes) (s : LookupState) (query : List ℤ) :
    Contract (Fin d.SIMT_THREADS) Owners Cell ℤ where
  inv := ClaimInv d s query
  rely := fun t st st' => ∀ q ∈ positions d t, Keeps q st st'
  refl := fun _ st q _ => Keeps.refl q st
  trans := fun _ _ _ _ h h' q hq => (h q hq).trans (h' q hq)

/-- An access about one of `t`'s positions is allowed if it leaves the other
positions alone. -/
theorem claiming_move {t : Fin d.SIMT_THREADS} {p : ℕ} (hp : p ∈ positions d t) {g g' : Owners}
    {m m' : Store} (hi : ClaimInv d s query g' m') (hk : ∀ q, q ≠ p → Keeps q (g, m) (g', m')) :
    (claiming d s query).Move t g m g' m' := by
  refine ⟨hi, fun u hu q hq => hk q ?_⟩
  rintro rfl
  exact hu (Fin.ext (gridStride_unique u.isLt t.isLt hq hp))

/-! ## The writes -/

section Writes

variable {g : Owners} {m : Store} {p : ℕ}

/-- Writing one of the two outputs at position `p`. -/
theorem ClaimInv.set_output (hi : ClaimInv d s query g m) {a : Cell}
    (ha : a = .slot_ids p ∨ a = .miss_mask p) (z : Option ℤ) :
    ClaimInv d s query g (update m a z) ∧ ∀ q, q ≠ p → Keeps q (g, m) (g, update m a z) := by
  have hne : ∀ b, (∀ q, b ≠ .slot_ids q) → (∀ q, b ≠ .miss_mask q) → update m a z b = m b := by
    intro b h1 h2
    rcases ha with rfl | rfl
    · exact Function.update_of_ne (h1 p) _ _
    · exact Function.update_of_ne (h2 p) _ _
  refine ⟨⟨fun i h => ?_, hi.owner, fun v h => ?_, fun v h => ?_, fun q h => ?_, fun q h => ?_⟩,
    fun q hq => ⟨fun _ _ h => h, fun v h => ?_, fun _ h => h, ?_, ?_⟩⟩
  · rw [hne _ (by simp) (by simp)]; exact hi.fwd i h
  · rw [hne _ (by simp) (by simp)]; exact hi.flag v h
  · rw [hne _ (by simp) (by simp)]; exact hi.bwd v h
  · rw [hne _ (by simp) (by simp)]; exact hi.lru q h
  · rw [hne _ (by simp) (by simp)]; exact hi.row q h
  · exact (hne (.hit_flags v) (by simp) (by simp)).trans h
  · refine Function.update_of_ne ?_ _ _
    rcases ha with rfl | rfl
    · exact fun h => hq (Cell.slot_ids.inj h)
    · simp
  · refine Function.update_of_ne ?_ _ _
    rcases ha with rfl | rfl
    · simp
    · exact fun h => hq (Cell.miss_mask.inj h)

/-- Flagging the slot of a resident queried token. Every position is left alone. -/
theorem ClaimInv.set_flag (hi : ClaimInv d s query g m) {v : ℕ}
    (hv : ∃ t ∈ query, Resident s t ∧ read s.token_to_slot t.toNat = v) :
    ClaimInv d s query g (update m (.hit_flags v) (some 1)) ∧
      ∀ q, Keeps q (g, m) (g, update m (.hit_flags v) (some 1)) := by
  have hne : ∀ a, (∀ q, a ≠ .hit_flags q) → update m (.hit_flags v) (some 1) a = m a :=
    fun a ha => Function.update_of_ne (ha v) _ _
  refine ⟨⟨fun i h => ?_, hi.owner, fun w h => ?_, fun v h => ?_, fun q h => ?_, fun q h => ?_⟩,
    fun q => ⟨fun _ _ h => h, fun w h => ?_, fun _ h => h, hne (.slot_ids q) (by simp),
      hne (.miss_mask q) (by simp)⟩⟩
  · rw [hne _ (by simp)]; exact hi.fwd i h
  · by_cases hw : w = v
    · subst hw; rw [Function.update_self]; exact Or.inr ⟨rfl, hv⟩
    · rw [Function.update_of_ne fun h => hw (Cell.hit_flags.inj h)]; exact hi.flag w h
  · rw [hne _ (by simp)]; exact hi.bwd v h
  · rw [hne _ (by simp)]; exact hi.lru q h
  · rw [hne _ (by simp)]; exact hi.row q h
  · by_cases hw : w = v
    · subst hw; exact Function.update_self _ _ _
    · exact (Function.update_of_ne (fun h => hw (Cell.hit_flags.inj h)) _ _).trans h

/-- The winning compare-and-swap. -/
theorem ClaimInv.claim (hi : ClaimInv d s query g m) (hp : p < d.QUERY_COUNT)
    (hmiss : Missing s (read query p)) (hfree : g (read query p).toNat = none) :
    ClaimInv d s query (update g (read query p).toNat (some p))
      (update m (.token_to_slot (read query p).toNat) (some CLAIMING)) ∧
    ∀ q, q ≠ p → Keeps q (g, m) (update g (read query p).toNat (some p),
      update m (.token_to_slot (read query p).toNat) (some CLAIMING)) := by
  -- only one cell is written
  have hne : ∀ a, (∀ q, a ≠ .token_to_slot q) →
      update m (.token_to_slot (read query p).toNat) (some CLAIMING) a = m a :=
    fun a ha => Function.update_of_ne (ha _) _ _
  have h0 := hmiss.1.1
  refine ⟨⟨fun i h => ?_, fun i q h => ?_, fun v h => ?_, fun v h => ?_, fun q h => ?_,
    fun q h => ?_⟩, fun q hq => ⟨fun i r h => ?_, fun v h => ?_, fun i h => ?_, ?_, ?_⟩⟩
  -- the entry that was claimed, and the others
  · by_cases hit : i = (read query p).toNat
    · subst hit; rw [Function.update_self, Function.update_self]; rfl
    · rw [Function.update_of_ne hit,
        Function.update_of_ne fun h => hit (Cell.token_to_slot.inj h)]
      exact hi.fwd i h
  -- its owner is this position, the owners of the others are as before
  · by_cases hit : i = (read query p).toNat
    · subst hit
      rw [Function.update_self] at h
      obtain rfl := Option.some.inj h
      rw [Int.toNat_of_nonneg h0]
      exact ⟨hp, rfl, hmiss⟩
    · rw [Function.update_of_ne hit] at h
      exact hi.owner i q h
  · rw [hne _ (by simp)]; exact hi.flag v h
  · rw [hne _ (by simp)]; exact hi.bwd v h
  · rw [hne _ (by simp)]; exact hi.lru q h
  · rw [hne _ (by simp)]; exact hi.row q h
  -- nobody owned it, so that no owner is lost
  · by_cases hit : i = (read query p).toNat
    · dsimp only at h
      rw [hit, hfree] at h
      cases h
    · exact (Function.update_of_ne hit _ _).trans h
  · exact (hne (.hit_flags v) (by simp)).trans h
  -- no other position becomes its owner
  · dsimp only at h
    by_cases hit : i = (read query p).toNat
    · subst hit
      rw [Function.update_self] at h
      exact absurd (Option.some.inj h).symm hq
    · rwa [Function.update_of_ne hit] at h
  · exact hne (.slot_ids q) (by simp)
  · exact hne (.miss_mask q) (by simp)

end Writes

/-! ## What a thread knows of its positions -/

/-- The slot of a resident queried token. -/
def residentSlot (s : LookupState) (query : List ℤ) (p : ℕ) : ℤ :=
  if Resident s (read query p) then read s.token_to_slot (read query p).toNat else NOT_FOUND

/-- A position whose turn is over. -/
structure Resolved (s : LookupState) (query : List ℤ) (g : Owners) (m : Store) (p : ℕ) : Prop where
  ids : m (.slot_ids p) = some (residentSlot s query p)
  mask : m (.miss_mask p) = some (if g (read query p).toNat = some p then 1 else 0)
  claimed : Missing s (read query p) → (g (read query p).toNat).isSome
  flagged : Resident s (read query p) →
    m (.hit_flags (read s.token_to_slot (read query p).toNat).toNat) = some 1

/-- A position that owns nothing. -/
def Unowned (p : ℕ) (g : Owners) : Prop := ∀ i, g i ≠ some p

/-- An owner that is found is never lost again. -/
theorem isSome_of_keeps {q : ℕ} {st st' : Owners × Store} (hk : Keeps q st st') {i : ℕ}
    (h : (st.1 i).isSome) : (st'.1 i).isSome := by
  obtain ⟨p, hp⟩ := Option.isSome_iff_exists.mp h
  rw [hk.owners i p hp]
  rfl

/-- A position that is resolved stays so, whatever the others do. -/
theorem Resolved.keep {g g' : Owners} {m m' : Store} {p : ℕ} (h : Resolved s query g m p)
    (hk : Keeps p (g, m) (g', m')) : Resolved s query g' m' p where
  ids := hk.ids.trans h.ids
  mask := by
    refine hk.mask.trans (h.mask.trans ?_)
    have hiff : g (read query p).toNat = some p ↔ g' (read query p).toNat = some p :=
      ⟨hk.owners _ _, hk.mine _⟩
    simp only [hiff]
  claimed := fun hm => isSome_of_keeps hk (h.claimed hm)
  flagged := fun hr => hk.flags _ (h.flagged hr)

/-- A position that owns nothing gets nothing from the others. -/
theorem Unowned.keep {g g' : Owners} {m m' : Store} {p : ℕ} (h : Unowned p g)
    (hk : Keeps p (g, m) (g', m')) : Unowned p g' := fun i hi => h i (hk.mine i hi)

/-- Thread `t` has dealt with the positions `pre`. -/
def Progress (d : Sizes) (s : LookupState) (query : List ℤ) (t : ℕ) (pre : List ℕ) (g : Owners)
    (m : Store) : Prop :=
  (∀ q ∈ positions d t, q ∈ pre → Resolved s query g m q) ∧
    ∀ q ∈ positions d t, q ∉ pre → Unowned q g

/-- Thread `t` has dealt with `pre` and is at position `p`, about which `Φ` holds. -/
def Turn (d : Sizes) (s : LookupState) (query : List ℤ) (t : ℕ) (pre : List ℕ) (p : ℕ)
    (Φ : Owners → Store → Prop) (g : Owners) (m : Store) : Prop :=
  ((∀ q ∈ positions d t, q ∈ pre → Resolved s query g m q) ∧
    ∀ q ∈ positions d t, q ∉ pre → q ≠ p → Unowned q g) ∧ Φ g m

section Turns

variable {t : Fin d.SIMT_THREADS} {pre : List ℕ} {p : ℕ}

/-- So a thread's progress does not depend on the others. -/
theorem progress_stable : Stable (claiming d s query) t (Progress d s query t pre) := by
  intro g m g' m' hr _ _ h
  exact ⟨fun q hq hpre => (h.1 q hq hpre).keep (hr q hq),
    fun q hq hpre => (h.2 q hq hpre).keep (hr q hq)⟩

/-- A fact about one's own position that `Keeps` preserves is stable. -/
theorem turn_stable {Φ : Owners → Store → Prop} (hp : p ∈ positions d t)
    (hΦ : ∀ g m g' m', Keeps p (g, m) (g', m') → Φ g m → Φ g' m') :
    Stable (claiming d s query) t (Turn d s query t pre p Φ) := by
  intro g m g' m' hr _ _ h
  exact ⟨⟨fun q hq hpre => (h.1.1 q hq hpre).keep (hr q hq),
    fun q hq hpre hne => (h.1.2 q hq hpre hne).keep (hr q hq)⟩, hΦ g m g' m' (hr p hp) h.2⟩

/-- A thread comes to its next position with nothing owned for it. -/
theorem Progress.turn {g : Owners} {m : Store} (h : Progress d s query t pre g m)
    (hp : p ∈ positions d t) (hpre : p ∉ pre) :
    Turn d s query t pre p (fun g _ => Unowned p g) g m :=
  ⟨⟨h.1, fun q hq hq' _ => h.2 q hq hq'⟩, h.2 p hp hpre⟩

/-- An access about position `p`. -/
theorem Turn.access {Φ Φ' : Owners → Store → Prop} {g g' : Owners} {m m' : Store}
    (h : Turn d s query t pre p Φ g m) (hpre : p ∉ pre)
    (hk : ∀ q, q ≠ p → Keeps q (g, m) (g', m')) (hΦ : Φ' g' m') :
    Turn d s query t pre p Φ' g' m' := by
  refine ⟨⟨fun q hq hq' => (h.1.1 q hq hq').keep (hk q ?_),
    fun q hq hq' hne => (h.1.2 q hq hq' hne).keep (hk q hne)⟩, hΦ⟩
  rintro rfl
  exact hpre hq'

/-- The end of a turn. -/
theorem Turn.progress {Φ : Owners → Store → Prop} {g : Owners} {m : Store}
    (h : Turn d s query t pre p Φ g m) (hΦ : Φ g m → Resolved s query g m p) :
    Progress d s query t (pre ++ [p]) g m := by
  refine ⟨fun q hq hq' => ?_, fun q hq hq' => ?_⟩
  · rcases List.mem_append.mp hq' with hq' | hq'
    · exact h.1.1 q hq hq'
    · rw [List.mem_singleton.mp hq']; exact hΦ h.2
  · rw [List.mem_append, List.mem_singleton, not_or] at hq'
    exact h.1.2 q hq hq'.1 hq'.2

/-! ## Rules for the program of one turn -/

variable {R : Type} {E : Thread R → Owners → Store → Prop} {Φ : Owners → Store → Prop}

/-- A fact that no memory has a part in can be taken out. -/
theorem turn_pure {φ : Prop} {k : Thread R}
    (h : φ → Triple (claiming d s query) (Cell.Inside d) t (Turn d s query t pre p Φ) k E) :
    Triple (claiming d s query) (Cell.Inside d) t
      (Turn d s query t pre p fun g m => φ ∧ Φ g m) k E :=
  fun g m hi hp => h hp.2.1 g m hi ⟨hp.1, hp.2.2⟩

theorem turn_weaken (Φ' : Owners → Store → Prop) {k : Thread R}
    (h : Triple (claiming d s query) (Cell.Inside d) t (Turn d s query t pre p Φ') k E)
    (hΦ : ∀ g m, Φ g m → Φ' g m) :
    Triple (claiming d s query) (Cell.Inside d) t (Turn d s query t pre p Φ) k E :=
  triple_weaken h fun g m _ hp => ⟨hp.1, hΦ g m hp.2⟩

/-- A load: what the thread knows of the cell holds of what it reads. -/
theorem turn_read {a : Cell} {f : ℤ → Thread R} (Φ' : ℤ → Owners → Store → Prop)
    (hp : p ∈ positions d t) (hΦ : ∀ g m g' m', Keeps p (g, m) (g', m') → Φ g m → Φ g' m')
    (ha : a.Inside d)
    (hv : ∀ g m, ClaimInv d s query g m → Φ g m → ∃ v, m a = some v ∧ Φ' v g m)
    (hf : ∀ v, Triple (claiming d s query) (Cell.Inside d) t (Turn d s query t pre p (Φ' v)) (f v) E) :
    Triple (claiming d s query) (Cell.Inside d) t (Turn d s query t pre p Φ)
      (Prog.read a >>= f) E := by
  refine triple_read (fun v => Turn d s query t pre p (Φ' v)) (turn_stable hp hΦ) ?_ hf
  intro g m hi h
  obtain ⟨v, hv, h'⟩ := hv g m hi h.2
  exact ⟨ha, v, hv, h.1, h'⟩

/-- A store into a cell that the position may write. -/
theorem turn_write {a : Cell} {z : ℤ} {f : Unit → Thread R} (Φ' : Owners → Store → Prop)
    (hp : p ∈ positions d t) (hpre : p ∉ pre)
    (hΦ : ∀ g m g' m', Keeps p (g, m) (g', m') → Φ g m → Φ g' m') (ha : a.Inside d)
    (hw : ∀ g m, ClaimInv d s query g m → Φ g m → ClaimInv d s query g (update m a (some z)) ∧
      (∀ q, q ≠ p → Keeps q (g, m) (g, update m a (some z))) ∧ Φ' g (update m a (some z)))
    (hf : Triple (claiming d s query) (Cell.Inside d) t (Turn d s query t pre p Φ') (f ()) E) :
    Triple (claiming d s query) (Cell.Inside d) t (Turn d s query t pre p Φ)
      (Prog.write a z >>= f) E := by
  refine triple_write (Turn d s query t pre p Φ') (turn_stable hp hΦ) ?_ hf
  intro g m hi h
  obtain ⟨hi', hk, h'⟩ := hw g m hi h.2
  exact ⟨ha, g, claiming_move hp hi' hk, h.access hpre hk h'⟩

/-- The turn is over when its position is resolved. -/
theorem turn_finish (hp : p ∈ positions d t)
    (hΦ : ∀ g m g' m', Keeps p (g, m) (g', m') → Φ g m → Φ g' m')
    (hres : ∀ g m, ClaimInv d s query g m → Φ g m → Resolved s query g m p) :
    Triple (claiming d s query) (Cell.Inside d) t (Turn d s query t pre p Φ) (pure ())
      fun e g m => ∃ r, e = .ret r ∧ Progress d s query t (pre ++ [p]) g m :=
  triple_ret (turn_stable hp hΦ) fun g m hi h => ⟨(), rfl, h.progress (hres g m hi)⟩

end Turns

/-! ## One turn -/

/-- The two outputs at position `p`. -/
def Shows (p : ℕ) (id mask : ℤ) (m : Store) : Prop :=
  m (.slot_ids p) = some id ∧ m (.miss_mask p) = some mask

/-- The others leave the two outputs of a position as they are. -/
theorem Shows.keep {p : ℕ} {id mask : ℤ} {g g' : Owners} {m m' : Store} (h : Shows p id mask m)
    (hk : Keeps p (g, m) (g', m')) : Shows p id mask m' :=
  ⟨hk.ids.trans h.1, hk.mask.trans h.2⟩

section Query

variable {t : Fin d.SIMT_THREADS} {pre : List ℕ} {p : ℕ}

/-- Where the table does not say claimed, it says what it said at the start. -/
theorem ClaimInv.entry {g : Owners} {m : Store} (hi : ClaimInv d s query g m)
    (hr : Request d s query) {z : ℤ} (hz : InRange s z) :
    z.toNat < d.INDEX_SIZE ∧ ∃ v, m (.token_to_slot z.toNat) = some v ∧
      (v = read s.token_to_slot z.toNat ∨ v = CLAIMING ∧ Missing s z ∧ (g z.toNat).isSome) ∧
      (v = NOT_FOUND → g z.toNat = none) := by
  have h0 := hz.1
  have h1 := hz.2
  rw [hr.fwd_length] at h1
  have hlt : z.toNat < d.INDEX_SIZE := by omega
  refine ⟨hlt, _, hi.fwd _ hlt, ?_, fun hv => ?_⟩
  · split_ifs with hs
    · obtain ⟨p, hp⟩ := Option.isSome_iff_exists.mp hs
      have := (hi.owner _ p hp).2.2
      rw [Int.toNat_of_nonneg h0] at this
      exact Or.inr ⟨rfl, this, hs⟩
    · exact Or.inl rfl
  · by_contra hne
    rw [if_pos (Option.isSome_iff_ne_none.mpr hne)] at hv
    exact absurd hv (by decide)

/-- A position that owns nothing shows no miss. -/
theorem Unowned.mask {g : Owners} (h : Unowned p g) :
    (0 : ℤ) = if g (read query p).toNat = some p then 1 else 0 := (if_neg (h _)).symm

theorem not_resident_of_missing {z : ℤ} (h : Missing s z) : ¬ Resident s z := fun hr => by
  have h1 := hr.2
  have h2 := h.2
  omega

/-- Neither an owner nor resident: the position shows what it was initialised to. -/
theorem idle_turn (hp : p ∈ positions d t) (hres : ¬ Resident s (read query p))
    (Φ : Owners → Prop) (hΦ : ∀ g m g' m', Keeps p (g, m) (g', m') → Φ g → Φ g')
    (hclaimed : Missing s (read query p) → ∀ g, Φ g → (g (read query p).toNat).isSome) :
    Triple (claiming d s query) (Cell.Inside d) t
      (Turn d s query t pre p fun g m => (Unowned p g ∧ Shows p NOT_FOUND 0 m) ∧ Φ g) (pure ())
      fun e g m => ∃ r, e = .ret r ∧ Progress d s query t (pre ++ [p]) g m := by
  refine turn_finish hp (fun g m g' m' hk h =>
    ⟨⟨h.1.1.keep hk, h.1.2.keep hk⟩, hΦ g m g' m' hk h.2⟩) fun g m _ h => ⟨?_, ?_, ?_, ?_⟩
  · rw [residentSlot, if_neg hres]; exact h.1.2.1
  · rw [← h.1.1.mask]; exact h.1.2.2
  · exact fun hm => hclaimed hm g h.2
  · exact fun hc => absurd hc hres

/-- A hit. -/
theorem hit_turn (hr : Request d s query) (hp : p ∈ positions d t) (hpre : p ∉ pre)
    (hlt : p < d.QUERY_COUNT) (hres : Resident s (read query p)) :
    Triple (claiming d s query) (Cell.Inside d) t
      (Turn d s query t pre p fun g m => Unowned p g ∧ Shows p NOT_FOUND 0 m)
      (do
        Prog.write (.slot_ids p) (read s.token_to_slot (read query p).toNat)
        Prog.write (.hit_flags (u32 (read s.token_to_slot (read query p).toNat))) 1
        pure ())
      fun e g m => ∃ r, e = .ret r ∧ Progress d s query t (pre ++ [p]) g m := by
  -- the slot of a resident token is a slot, and `u32` leaves it alone
  have hmem : read query p ∈ query := read_mem (by rw [hr.query_length]; exact hlt)
  have hslot := hr.wf.slot_lt hres.2
  have h0 := hres.2
  have h16 := hr.fits.slot_i16
  rw [hr.bwd_length] at hslot
  have hin : (read s.token_to_slot (read query p).toNat).toNat < d.SLOT_COUNT := by omega
  have hu : u32 (read s.token_to_slot (read query p).toNat)
      = (read s.token_to_slot (read query p).toNat).toNat := u32_of_nonneg h0 (by omega)
  rw [hu]
  -- the slot goes into the output, which nobody else writes
  refine turn_write (fun g m => Unowned p g ∧
    Shows p (read s.token_to_slot (read query p).toNat) 0 m) hp hpre
    (fun g m g' m' hk h => ⟨h.1.keep hk, h.2.keep hk⟩) hlt (fun g m hi h => ?_) ?_
  · obtain ⟨h1, h2⟩ := hi.set_output (Or.inl rfl)
      (some (read s.token_to_slot (read query p).toNat))
    exact ⟨h1, h2, h.1, Function.update_self _ _ _,
      (Function.update_of_ne (by simp) _ _).trans h.2.2⟩
  -- the flag of the slot is set; others may have set it before
  refine turn_write (fun g m => (Unowned p g ∧
    Shows p (read s.token_to_slot (read query p).toNat) 0 m) ∧
    m (.hit_flags (read s.token_to_slot (read query p).toNat).toNat) = some 1) hp hpre
    (fun g m g' m' hk h => ⟨h.1.keep hk, h.2.keep hk⟩) hin (fun g m hi h => ?_) ?_
  · obtain ⟨h1, h2⟩ := hi.set_flag ⟨_, hmem, hres, (Int.toNat_of_nonneg h0).symm⟩
    refine ⟨h1, fun q _ => h2 q, ⟨h.1, ?_, ?_⟩, Function.update_self _ _ _⟩
    · exact (Function.update_of_ne (by simp) _ _).trans h.2.1
    · exact (Function.update_of_ne (by simp) _ _).trans h.2.2
  -- the position is resolved as a hit
  refine turn_finish hp (fun g m g' m' hk h =>
    ⟨⟨h.1.1.keep hk, h.1.2.keep hk⟩, hk.flags _ h.2⟩) fun g m _ h => ⟨?_, ?_, ?_, ?_⟩
  · rw [residentSlot, if_pos hres]; exact h.1.2.1
  · rw [← h.1.1.mask]; exact h.1.2.2
  · exact fun hm => absurd hres (not_resident_of_missing hm)
  · exact fun _ => h.2

/-- A miss races for its token's entry. -/
theorem miss_turn (hr : Request d s query) (hp : p ∈ positions d t) (hpre : p ∉ pre)
    (hlt : p < d.QUERY_COUNT) (hmiss : Missing s (read query p)) :
    Triple (claiming d s query) (Cell.Inside d) t
      (Turn d s query t pre p fun g m => Unowned p g ∧ Shows p NOT_FOUND 0 m)
      (do
        let old ← Prog.atomicCas (.token_to_slot (read query p).toNat) NOT_FOUND CLAIMING
        if old = NOT_FOUND then do
          Prog.write (.miss_mask p) 1
          pure ()
        else if old ≥ 0 then do
          Prog.write (.slot_ids p) old
          Prog.write (.hit_flags (u32 old)) 1
          pure ()
        else pure ())
      fun e g m => ∃ r, e = .ret r ∧ Progress d s query t (pre ++ [p]) g m := by
  have hnres := not_resident_of_missing hmiss
  -- either this thread has won, or somebody has
  refine triple_cas (fun old => Turn d s query t pre p fun g m =>
    old = NOT_FOUND ∧ g (read query p).toNat = some p ∧ Shows p NOT_FOUND 0 m ∨
    old = CLAIMING ∧ (Unowned p g ∧ Shows p NOT_FOUND 0 m) ∧ (g (read query p).toNat).isSome)
    (turn_stable hp fun g m g' m' hk h => ⟨h.1.keep hk, h.2.keep hk⟩) (fun g m hi h => ?_)
    fun old => ?_
  · obtain ⟨hidx, v, hv, hval, hfree⟩ := hi.entry hr hmiss.1
    refine ⟨hidx, v, hv, fun heq => ?_, fun hne => ?_⟩
    · obtain ⟨h1, h2⟩ := hi.claim hlt hmiss (hfree heq)
      refine ⟨_, claiming_move hp h1 h2, h.access hpre h2 (Or.inl ⟨heq, ?_, ?_⟩)⟩
      · exact Function.update_self _ _ _
      · exact ⟨(Function.update_of_ne (by simp) _ _).trans h.2.2.1,
          (Function.update_of_ne (by simp) _ _).trans h.2.2.2⟩
    · rcases hval with rfl | ⟨rfl, _, hs⟩
      · exact absurd hmiss.2 hne
      · exact ⟨h.1, Or.inr ⟨rfl, h.2, hs⟩⟩
  by_cases hwon : old = NOT_FOUND
  · -- the winner reports the miss
    rw [if_pos hwon]
    refine turn_weaken (fun g m => g (read query p).toNat = some p ∧ Shows p NOT_FOUND 0 m) ?_ ?_
    · refine turn_write (fun g m => g (read query p).toNat = some p ∧ Shows p NOT_FOUND 1 m) hp hpre
        (fun g m g' m' hk h => ⟨hk.owners _ _ h.1, h.2.keep hk⟩) hlt (fun g m hi h => ?_) ?_
      · obtain ⟨h1, h2⟩ := hi.set_output (Or.inr rfl) (some 1)
        exact ⟨h1, h2, h.1, (Function.update_of_ne (by simp) _ _).trans h.2.1,
          Function.update_self _ _ _⟩
      refine turn_finish hp (fun g m g' m' hk h => ⟨hk.owners _ _ h.1, h.2.keep hk⟩)
        fun g m _ h => ⟨?_, ?_, ?_, ?_⟩
      · rw [residentSlot, if_neg hnres]; exact h.2.1
      · rw [if_pos h.1]; exact h.2.2
      · intro _; rw [h.1]; rfl
      · exact fun hc => absurd hc hnres
    · rintro g m (⟨_, h⟩ | ⟨rfl, _⟩)
      · exact h
      · exact absurd hwon (by decide)
  rw [if_neg hwon]
  by_cases hpos : old ≥ 0
  · -- no slot is ever put there in this phase
    intro g m _ h
    rcases h.2 with ⟨rfl, _⟩ | ⟨rfl, _⟩
    · exact absurd rfl hwon
    · exact absurd hpos (by decide)
  rw [if_neg hpos]
  refine turn_weaken _ (idle_turn hp hnres (fun g => (g (read query p).toNat).isSome)
    (fun g m g' m' hk h => isSome_of_keeps hk h) fun _ _ h => h) ?_
  rintro g m (⟨rfl, _⟩ | ⟨_, h⟩)
  · exact absurd rfl hwon
  · exact h

/-- **One query position.** -/
theorem claimQuery_triple (hr : Request d s query) (hp : p ∈ positions d t) (hpre : p ∉ pre) :
    Triple (claiming d s query) (Cell.Inside d) t (Progress d s query t pre) (claimQuery d p)
      fun e g m => ∃ r, e = .ret r ∧ Progress d s query t (pre ++ [p]) g m := by
  have hlt : p < d.QUERY_COUNT := ((mem_gridStride t.isLt).mp hp).1
  have hrange : InRange s (read query p) ↔ ¬ (read query p < 0 ∨ read query p ≥ d.INDEX_SIZE) := by
    unfold InRange; rw [hr.fwd_length]; omega
  refine triple_weaken ?_ fun g m _ h => h.turn hp hpre
  unfold claimQuery
  refine turn_read (fun v g _ => v = read query p ∧ Unowned p g) hp
    (fun g m g' m' hk h => h.keep hk) hlt (fun g m hi h => ⟨_, hi.row p hlt, rfl, h⟩) fun v => ?_
  refine turn_pure ?_
  rintro rfl
  refine turn_write (fun g m => Unowned p g ∧ m (.slot_ids p) = some NOT_FOUND) hp hpre
    (fun g m g' m' hk h => h.keep hk) hlt (fun g m hi h => ?_) ?_
  · obtain ⟨h1, h2⟩ := hi.set_output (Or.inl rfl) (some NOT_FOUND)
    exact ⟨h1, h2, h, Function.update_self _ _ _⟩
  refine turn_write (fun g m => Unowned p g ∧ Shows p NOT_FOUND 0 m) hp hpre
    (fun g m g' m' hk h => ⟨h.1.keep hk, hk.ids.trans h.2⟩) hlt (fun g m hi h => ?_) ?_
  · obtain ⟨h1, h2⟩ := hi.set_output (Or.inr rfl) (some 0)
    exact ⟨h1, h2, h.1, (Function.update_of_ne (by simp) _ _).trans h.2, Function.update_self _ _ _⟩
  have hstable : ∀ (id mask : ℤ) (g : Owners) (m : Store) (g' : Owners) (m' : Store),
      Keeps p (g, m) (g', m') → Unowned p g ∧ Shows p id mask m → Unowned p g' ∧ Shows p id mask m' :=
    fun _ _ g m g' m' hk h => ⟨h.1.keep hk, h.2.keep hk⟩
  by_cases hout : read query p < 0 ∨ read query p ≥ d.INDEX_SIZE
  · -- padding
    rw [if_pos hout]
    have hnr : ¬ InRange s (read query p) := fun hc => hrange.mp hc hout
    refine turn_weaken _ (idle_turn hp (fun hc => hnr hc.1) (fun _ => True) (fun _ _ _ _ _ h => h)
      fun hc => absurd hc.1 hnr) fun g m h => ⟨h, trivial⟩
  rw [if_neg hout]
  have hin : InRange s (read query p) := hrange.mpr hout
  have hu : u32 (read query p) = (read query p).toNat := by
    have h1 := hin.2
    have := hr.fits.index_i32
    rw [hr.fwd_length] at h1
    exact u32_of_nonneg hin.1 (by omega)
  have hidx : (read query p).toNat < d.INDEX_SIZE := by
    have h0 := hin.1
    have h1 := hin.2
    rw [hr.fwd_length] at h1
    omega
  rw [hu]
  refine turn_read (fun v g m => (Unowned p g ∧ Shows p NOT_FOUND 0 m) ∧
      (v = read s.token_to_slot (read query p).toNat ∨
        v = CLAIMING ∧ Missing s (read query p) ∧ (g (read query p).toNat).isSome)) hp
      (hstable _ _) hidx (fun g m hi h => ?_) fun v => ?_
  · obtain ⟨_, v, hv, hval, _⟩ := hi.entry hr hin
    exact ⟨v, hv, h, hval⟩
  by_cases hpos : v ≥ 0
  · rw [if_pos hpos]
    intro g m hi h
    rcases h.2.2 with rfl | ⟨rfl, _⟩
    · exact hit_turn hr hp hpre hlt ⟨hin, hpos⟩ g m hi ⟨h.1, h.2.1⟩
    · exact absurd hpos (by decide)
  rw [if_neg hpos]
  by_cases hnf : v = NOT_FOUND
  · rw [if_pos hnf]
    intro g m hi h
    rcases h.2.2 with rfl | ⟨rfl, _⟩
    · exact miss_turn hr hp hpre hlt ⟨hin, hnf⟩ g m hi ⟨h.1, h.2.1⟩
    · exact absurd hnf (by decide)
  rw [if_neg hnf]
  -- a duplicate that sees the claim
  intro g m hi h
  rcases h.2.2 with rfl | ⟨_, hmiss, hs⟩
  · have h1 := hr.wf.fwd_sentinel.read (read query p).toNat
    unfold NOT_FOUND at hnf
    omega
  · exact idle_turn hp (not_resident_of_missing hmiss) (fun g => (g (read query p).toNat).isSome)
      (fun g m g' m' hk h => isSome_of_keeps hk h) (fun _ _ h => h) g m hi ⟨h.1, h.2.1, hs⟩

/-- **The positions of a thread**, one after the other. -/
theorem claimQueries_triple (hr : Request d s query) :
    Triple (claiming d s query) (Cell.Inside d) t (Progress d s query t []) (claimQueries d t)
      fun e g m => ∃ r, e = .ret r ∧ Progress d s query t (positions d t) g m := by
  refine triple_forEach (Progress d s query t) _ (fun pre => progress_stable) ?_
  intro pre p suf hsplit
  have hnodup : (gridStride t d.QUERY_COUNT d.SIMT_THREADS).Nodup := gridStride_nodup t.pos
  refine claimQuery_triple hr ?_ ?_
  · unfold positions; rw [hsplit]; simp
  · rw [hsplit] at hnodup
    intro hp
    exact (List.nodup_append.mp hnodup).2.2 p hp p (by simp) rfl

end Query

/-! ## The whole phase -/

section Phase

variable {rest : Fin d.SIMT_THREADS → Thread Unit}

/-- A thread that waits at the barrier; `K` is whatever else it knows. -/
theorem wait_triple {t : Fin d.SIMT_THREADS} {K : Owners → Store → Prop} {k : Thread Unit}
    (hK : Stable (claiming d s query) t K) :
    Triple (claiming d s query) (Cell.Inside d) t
      (fun g m => Progress d s query t (positions d t) g m ∧ K g m) (.sync k)
      fun e g m => ∃ k', e = .sync k' ∧ k' = k ∧ Progress d s query t (positions d t) g m ∧ K g m :=
  triple_sync (progress_stable.and hK) fun _ _ _ h => ⟨_, rfl, rfl, h⟩

/-- A thread from the start of the phase to the barrier. -/
theorem claim_triple (hr : Request d s query) {t : Fin d.SIMT_THREADS}
    {K : Owners → Store → Prop} {k : Thread Unit} (hK : ∀ g m, K g m) :
    Triple (claiming d s query) (Cell.Inside d) t (Progress d s query t [])
      (do claimQueries d t; Prog.barrier; k)
      fun e g m => ∃ k', e = .sync k' ∧ k' = k ∧ Progress d s query t (positions d t) g m ∧
        K g m := by
  refine triple_bind (fun _ g m => Progress d s query t (positions d t) g m ∧ K g m)
    (fun _ _ hi h => ?_) fun _ => wait_triple fun _ _ _ _ _ _ _ _ => hK _ _
  refine (claimQueries_triple hr _ _ hi h).mono ?_
  rintro e g m _ ⟨r, hr, hpr⟩
  exact ⟨r, hr, hpr, hK g m⟩

/-- The threads in the phase: those that have not started, and those that wait at the
barrier. -/
theorem claim_running (hr : Request d s query) (K : Fin d.SIMT_THREADS → Owners → Store → Prop)
    (hK : ∀ t, Stable (claiming d s query) t (K t)) {g0 : Owners} {m : Store}
    (hi : ClaimInv d s query g0 m) {progs : Fin d.SIMT_THREADS → Thread Unit}
    (h : ∀ t, (progs t = (do claimQueries d t; Prog.barrier; rest t) ∧
        Progress d s query t [] g0 m ∧ ∀ g m, K t g m) ∨
      (progs t = .sync (rest t) ∧ Progress d s query t (positions d t) g0 m ∧ K t g0 m)) :
    (claiming d s query).Running (Cell.Inside d) (fun t e g m => ∃ k, e = .sync k ∧
      k = rest t ∧ Progress d s query t (positions d t) g m ∧ K t g m) progs m := by
  refine ⟨g0, hi, fun t => ?_⟩
  rcases h t with ⟨hp, hprog, hk⟩ | ⟨hp, hprog, hk⟩
  · rw [hp]
    exact claim_triple hr hk g0 m hi hprog
  · rw [hp]
    exact wait_triple (hK t) g0 m hi ⟨hprog, hk⟩

theorem positions_cover (hr : Request d s query) {p : ℕ} (hp : p < d.QUERY_COUNT) :
    ∃ t : Fin d.SIMT_THREADS, p ∈ positions d t :=
  ⟨⟨p % d.SIMT_THREADS, Nat.mod_lt _ hr.fits.threads_pos⟩, gridStride_cover hr.fits.threads_pos hp⟩

/-- The owners as a selector. -/
def ownerOf (g : Owners) (t : ℤ) : ℕ := (g t.toNat).getD 0

/-! The memory when every position is resolved. -/

section Outcome

variable {g : Owners} {m : Store} {c : Scan}

/-- The thread that a position belongs to is its residue. -/
theorem ownerOf_eq {t : ℤ} {p : ℕ} (h : g t.toNat = some p) : ownerOf g t = p := by
  unfold ownerOf
  rw [h]
  rfl

/-- A position of the row has a query. -/
theorem Request.query_get (hr : Request d s query) {p : ℕ} (hp : p < d.QUERY_COUNT) :
    query[p]? = some (read query p) := by
  have hlt : p < query.length := by rw [hr.query_length]; exact hp
  rw [read_of_lt hlt]
  exact List.getElem?_eq_getElem hlt

/-- A missing token of the row has an owner, at a position that queries it. -/
theorem owner_of_missing (hr : Request d s query) (hi : ClaimInv d s query g m)
    (hall : ∀ p < d.QUERY_COUNT, Resolved s query g m p) {t : ℤ} (ht : t ∈ query)
    (hmiss : Missing s t) : ∃ p < d.QUERY_COUNT, g t.toNat = some p ∧ query[p]? = some t := by
  obtain ⟨q, hq, rfl⟩ := mem_iff_read.mp ht
  rw [hr.query_length] at hq
  obtain ⟨p, hp⟩ := Option.isSome_iff_exists.mp ((hall q hq).claimed hmiss)
  obtain ⟨hlt, htok, _⟩ := hi.owner _ p hp
  refine ⟨p, hlt, hp, ?_⟩
  rw [hr.query_get hlt, htok, Int.toNat_of_nonneg hmiss.1.1]

/-- A token is claimed exactly when the scan records it. -/
theorem claimed_iff (hr : Request d s query) (hi : ClaimInv d s query g m)
    (hall : ∀ p < d.QUERY_COUNT, Resolved s query g m p) (hc : ScanSpec s query query.length c)
    (i : ℕ) : (g i).isSome ↔ (i : ℤ) ∈ c.unique_misses.map Prod.snd := by
  rw [hc.miss_iff]
  constructor
  · intro hs
    obtain ⟨p, hp⟩ := Option.isSome_iff_exists.mp hs
    obtain ⟨hplt, htok, hmiss⟩ := hi.owner i p hp
    refine ⟨?_, hmiss⟩
    rw [← htok]
    exact read_mem (by rw [hr.query_length]; exact hplt)
  · rintro ⟨ht, hmiss⟩
    obtain ⟨p, _, hp, _⟩ := owner_of_missing hr hi hall ht hmiss
    rw [Int.toNat_natCast] at hp
    rw [hp]
    rfl

/-- A position owns its token exactly when the scan reports the miss there. -/
theorem owns_iff (hr : Request d s query) (hi : ClaimInv d s query g m)
    (hall : ∀ p < d.QUERY_COUNT, Resolved s query g m p) (hsel : Selected s query (ownerOf g) c)
    {p : ℕ} (hp : p < d.QUERY_COUNT) :
    g (read query p).toNat = some p ↔ p ∈ c.unique_misses.map Prod.fst := by
  rw [List.mem_map]
  constructor
  · intro hg
    obtain ⟨_, htok, hmiss⟩ := hi.owner _ p hg
    rw [← htok] at hmiss
    exact ⟨(p, read query p), (hsel _ _).mpr ⟨hr.query_get hp, hmiss, ownerOf_eq hg⟩, rfl⟩
  · rintro ⟨⟨q, t⟩, hqt, rfl⟩
    obtain ⟨hq, hmiss, hw⟩ := (hsel q t).mp hqt
    dsimp only at hp ⊢
    rw [hr.query_get hp] at hq
    obtain rfl := Option.some.inj hq
    obtain ⟨p', _, hp', _⟩ := owner_of_missing hr hi hall
      (read_mem (by rw [hr.query_length]; exact hp)) hmiss
    rw [(ownerOf_eq hp').symm.trans hw] at hp'
    exact hp'

/-- A slot is flagged exactly when the scan counts it as hit. -/
theorem flagged_iff (hr : Request d s query) (hi : ClaimInv d s query g m)
    (hall : ∀ p < d.QUERY_COUNT, Resolved s query g m p) (hc : ScanSpec s query query.length c)
    {v : ℕ} (hv : v < d.SLOT_COUNT) :
    m (.hit_flags v) = some (if (v : ℤ) ∈ c.hit_slot_set then 1 else 0) := by
  by_cases hz : (v : ℤ) ∈ c.hit_slot_set
  · rw [if_pos hz]
    obtain ⟨t, ht, hres, hslot⟩ := (hc.hit_iff _).mp hz
    obtain ⟨q, hq, rfl⟩ := mem_iff_read.mp ht
    rw [hr.query_length] at hq
    have hflag := (hall q hq).flagged hres
    rw [hslot, Int.toNat_natCast] at hflag
    exact hflag
  · rw [if_neg hz]
    rcases hi.flag v hv with h | ⟨_, h⟩
    · exact h
    · exact absurd ((hc.hit_iff _).mpr h) hz

/-- **The outcome of the race.** Once every position is resolved, the owners select a
query position for each missing token, and the memory is that of the scan which
reports each miss there. -/
theorem claim_outcome (hr : Request d s query) (hi : ClaimInv d s query g m)
    (hall : ∀ p < d.QUERY_COUNT, Resolved s query g m p) :
    Selector s query (ownerOf g) ∧ ∀ c, ScanSpec s query query.length c →
      Selected s query (ownerOf g) c → Claimed d s query c m := by
  constructor
  · intro t ht hmiss
    obtain ⟨p, _, hp, hquery⟩ := owner_of_missing hr hi hall ht hmiss
    rw [ownerOf_eq hp]
    exact hquery
  · intro c hc hsel
    refine ⟨fun i hlt => ?_, hi.bwd, hi.lru, hi.row, fun p hp => (hall p hp).ids, fun p hp => ?_,
      fun v hv => flagged_iff hr hi hall hc hv⟩
    · rw [hi.fwd i hlt]
      simp only [claimed_iff hr hi hall hc]
    · rw [(hall p hp).mask]
      simp only [owns_iff hr hi hall hsel hp]

end Outcome

/-- When the flags have been cleared nobody owns anything. -/
theorem claimInv_start (hm : Loaded d s query m1)
    (hflags : ∀ v < d.SLOT_COUNT, m1 (.hit_flags v) = some 0) :
    ClaimInv d s query (fun _ => none) m1 where
  fwd := fun i hi => hm.fwd i hi
  owner := fun _ _ h => nomatch h
  flag := fun v hv => Or.inl (hflags v hv)
  bwd := hm.bwd
  lru := hm.lru
  row := hm.row

/-- **The claim phase**, whoever wins. -/
theorem claim_phase {Post : (Fin d.SIMT_THREADS → Unit) → Store → Prop} (hr : Request d s query)
    (hm : Loaded d s query m1) (hflags : ∀ v < d.SLOT_COUNT, m1 (.hit_flags v) = some 0)
    (h : ∀ w c m, Selector s query w → ScanSpec s query query.length c → Selected s query w c →
      Claimed d s query c m → Correct (Cell.Inside d) Post rest m) :
    Correct (Cell.Inside d) Post (fun t => do claimQueries d t; Prog.barrier; rest t) m1 := by
  refine .next (claiming d s query)
    (fun t k g m => k = rest t ∧ Progress d s query t (positions d t) g m ∧ True)
    (claim_running hr (fun _ _ _ => True) (fun _ _ _ _ _ _ _ _ _ => trivial)
      (claimInv_start hm hflags) fun t => Or.inl ⟨rfl, ?_, fun _ _ => trivial⟩) ?_
  · exact ⟨fun _ _ hq => absurd hq List.not_mem_nil, fun _ _ _ _ => nofun⟩
  intro ks g m hi hE
  obtain rfl : ks = rest := funext fun t => (hE t).1
  obtain ⟨hw, hclaimed⟩ := claim_outcome hr hi fun p hp => by
    obtain ⟨t, ht⟩ := positions_cover hr hp
    exact (hE t).2.1.1 p ht ht
  obtain ⟨c, _, hc, hsel⟩ := scanQueriesAt_spec hr.wf hw
  exact h _ c m hw hc hsel (hclaimed c hc hsel)

end Phase

end AsuAscend.Simt
