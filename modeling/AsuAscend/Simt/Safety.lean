/-
Memory safety of the kernel.

`simt_memory_safe`: in every run, from every workspace, each access goes to an element
of the request's own rows or of its own workspace arrays; what the install phase reads
of `evictable_slots` was written in this call; the two counts of the write-back are
in order, so that their unsigned difference does not wrap; and a slot stored to
`lru_slots` is the one read before the `int16_t` cast.

The runs are unchecked, and the workspace may hold anything. `kernel_correct` speaks
of an uninitialised workspace as well, which is what makes a read follow a write. The
last two facts come from the text of a thread's program (`kernel_obeys`): the counts
are written before the last barrier and read after it, and slot lists are copied from
slot lists.

## What counts as an own access

`OwnAccess` goes by the address, a tensor and an element: the request's row of the six tensors, or
one of the seven arrays of its slice. The rows of other requests and the gaps between two arrays are
no own access, even though they belong to the same allocation.

`Disciplined` is a property of the program text: along every path of a thread, what is stored where
follows from what has been loaded just before, and the counts are written and read on the right
sides of the barriers. It needs no memory and no schedule; `Obeys` carries it over to the runs.
-/
import AsuAscend.Lib.AccessLogs
import AsuAscend.Simt.Layout
import AsuAscend.Simt.Refinement

set_option autoImplicit false

open BarrierThreads BarrierThreads.Prog SentinelTable MachineWords WorkSplit AsuAscend.Lookup

namespace AsuAscend.Simt

/-! ## The counts at the end -/

section Counts

variable {d : Sizes} {s : LookupState} {query : List ℤ} {m0 : Store}

/-- The counters from which the write-back computes `stale_count`. -/
def Counts (d : Sizes) (m : Store) : Prop :=
  ∃ evictables misses : ℕ, misses ≤ evictables ∧ evictables ≤ d.SLOT_COUNT ∧
    m (.counters 1) = some (evictables : ℤ) ∧ m (.counters 2) = some (misses : ℤ)

/-- The counters that other threads read are counts, so that no rank leaves its array. -/
theorem kernel_counts (hr : Request d s query) (hm : Loaded d s query m0) :
    Correct (Cell.Inside d) (fun _ => Counts d) (launch d) m0 := by
  rw [launch_eq]
  apply clear_phase hr.fits.threads_pos
  refine claim_phase hr hm.cleared (fun v hv => if_pos hv) ?_
  intro w c m hw hc hsel hcl
  refine (afterClaims_final hr hw hc hsel hcl).mono ?_
  rintro _ m' ⟨c', out, s', hc', -, -, hspec, hcl', rfl⟩
  have hinst : Installed d s query c' out s' _ := hcl'.partitioned.installed
  have hgroups := groups_length (c := c') hr
  -- the write-back leaves the counters alone
  exact ⟨_, _, hspec.enough, by omega, hinst.evictable_count, hinst.miss_count⟩

end Counts

/-! ## The discipline of a thread -/

/-- The number of barriers passed. -/
def barriers (h : List (Option (Access Cell ℤ))) : ℕ := h.countP fun x => x.isNone

@[simp] theorem barriers_access (h : List (Option (Access Cell ℤ))) (x : Access Cell ℤ) :
    barriers (h ++ [some x]) = barriers h := by simp [barriers]

@[simp] theorem barriers_sync (h : List (Option (Access Cell ℤ))) :
    barriers (h ++ [none]) = barriers h + 1 := by simp [barriers]

/-- The lists of slots. -/
def Cell.HoldsSlot : Cell → Prop
  | lru_slots _ => True
  | hit_slots _ => True
  | evictable_slots _ => True
  | _ => False

/-- A list of slots holds slots. -/
def CellType (d : Sizes) (a : Cell) (v : ℤ) : Prop := a.HoldsSlot → 0 ≤ v ∧ v < d.SLOT_COUNT

/-- The thread has just read slot `v` from one of the compacted lists. -/
def JustRead (d : Sizes) (h : List (Option (Access Cell ℤ))) (v : ℤ) : Prop :=
  (0 ≤ v ∧ v < d.SLOT_COUNT) ∧ ∃ h' i,
    h = h' ++ [some (.load (.evictable_slots i) v)] ∨ h = h' ++ [some (.load (.hit_slots i) v)]

/-- What an access has to do with the thread's history: counters are read after the
last barrier and written before it, and `lru_slots` receives the slot just read. -/
def Allowed (d : Sizes) (h : List (Option (Access Cell ℤ))) : Access Cell ℤ → Prop
  | .load (.counters _) _ => barriers h = 6
  | .store (.counters _) _ => barriers h < 6
  | .store (.lru_slots _) v => JustRead d h v
  | .casOk a _ _ => ∃ token, a = .token_to_slot token
  | _ => True

section Discipline

variable {d : Sizes} {tid : ℕ}

/-- `n` barriers have been passed. -/
def Passed (n : ℕ) (h : List (Option (Access Cell ℤ))) : Prop := barriers h = n

@[simp] theorem passed_access {n : ℕ} {h : List (Option (Access Cell ℤ))} {x : Access Cell ℤ} :
    Passed n (h ++ [some x]) ↔ Passed n h := by simp [Passed]

/-- A thread's program keeps to the discipline and passes no barrier. -/
abbrev Disciplined (d : Sizes) (n : ℕ) {R : Type} (p : Thread R) : Prop :=
  ∀ h, Passed n h → Obeys (CellType d) (Allowed d) (fun _ => Passed n) p h

theorem disciplined_bind {n : ℕ} {R S : Type} {p : Thread R} {f : R → Thread S} (hp : Disciplined d n p)
    (hf : ∀ r, Disciplined d n (f r)) : Disciplined d n (p >>= f) :=
  fun h hh => obeys_bind (obeys_mono (hp h hh) fun r h' hh' => hf r h' hh')

theorem disciplined_foldEach {α : Type} {n : ℕ} {R : Type} {xs : List α} {body : R → α → Thread R} {r : R}
    (hbody : ∀ r, ∀ x ∈ xs, Disciplined d n (body r x)) : Disciplined d n (foldEach xs r body) :=
  fun _ hh => obeys_foldEach (fun r h hI x hx => hbody r x hx h hI) hh

theorem disciplined_forEach {α : Type} {n : ℕ} {xs : List α} {body : α → Thread Unit}
    (hbody : ∀ x ∈ xs, Disciplined d n (body x)) : Disciplined d n (forEach xs body) :=
  disciplined_foldEach fun _ x hx => hbody x hx

theorem disciplined_ret {n : ℕ} {R : Type} (r : R) : Disciplined d n (pure r : Thread R) := fun _ hh => hh

/-- A load, other than of a counter. -/
theorem disciplined_read {n : ℕ} {R : Type} {a : Cell} {f : ℤ → Thread R}
    (ha : ∀ i, a ≠ .counters i) (hf : ∀ v, CellType d a v → Disciplined d n (f v)) :
    Disciplined d n (Prog.read a >>= f) := by
  refine fun h hh v hv => ⟨?_, hf v hv _ (passed_access.mpr hh)⟩
  cases a <;> first | trivial | exact absurd rfl (ha _)

/-- A store, other than to a counter or to the LRU row. -/
theorem disciplined_write {n : ℕ} {R : Type} {a : Cell} {v : ℤ} {f : Unit → Thread R}
    (ha : ∀ i, a ≠ .counters i) (hl : ∀ i, a ≠ .lru_slots i) (hv : CellType d a v)
    (hf : Disciplined d n (f ())) : Disciplined d n (Prog.write a v >>= f) := by
  refine fun h hh => ⟨hv, ?_, hf _ (passed_access.mpr hh)⟩
  cases a <;> first | trivial | exact absurd rfl (ha _) | exact absurd rfl (hl _)

/-- A store to a counter, before the last barrier. -/
theorem disciplined_count {n i : ℕ} {R : Type} {v : ℤ} {f : Unit → Thread R} (hn : n < 6)
    (hf : Disciplined d n (f ())) : Disciplined d n (Prog.write (.counters i) v >>= f) := by
  refine fun h hh => ⟨fun hs => hs.elim, ?_, hf _ (passed_access.mpr hh)⟩
  have hb : barriers h = n := hh
  exact (by omega : barriers h < 6)

theorem disciplined_ite {n : ℕ} {R : Type} {c : Prop} [Decidable c] {p q : Thread R}
    (hp : Disciplined d n p) (hq : Disciplined d n q) : Disciplined d n (if c then p else q) := by
  split_ifs
  · exact hp
  · exact hq

/-- Before the first barrier a thread clears flags. -/
theorem clearFlags_disciplined : Disciplined d 0 (clearFlags d tid) := by
  refine disciplined_bind (disciplined_forEach fun slot _ => ?_) fun _ => disciplined_ite ?_ ?_
  · exact disciplined_write (by simp) (by simp) (fun h => h.elim) (disciplined_ret ())
  · exact disciplined_count (by omega) (disciplined_ret ())
  · exact disciplined_ret ()

theorem claimQuery_disciplined (pos : ℕ) : Disciplined d 1 (claimQuery d pos) := by
  -- a resident token
  have hhit : ∀ slot : ℤ, Disciplined d 1 (do
      Prog.write (.slot_ids pos) slot
      Prog.write (.hit_flags (u32 slot)) 1
      pure ()) := fun slot =>
    disciplined_write (by simp) (by simp) (fun h => h.elim)
      (disciplined_write (by simp) (by simp) (fun h => h.elim) (disciplined_ret ()))
  refine disciplined_read (by simp) fun token _ => ?_
  refine disciplined_write (by simp) (by simp) (fun h => h.elim) ?_
  refine disciplined_write (by simp) (by simp) (fun h => h.elim) ?_
  refine disciplined_ite (disciplined_ret ()) ?_
  refine disciplined_read (by simp) fun slot _ => ?_
  refine disciplined_ite (hhit slot) (disciplined_ite ?_ (disciplined_ret ()))
  -- the rest, by the value that the CAS finds
  have hrest : ∀ old : ℤ, Disciplined d 1 (if old = NOT_FOUND then do
        Prog.write (.miss_mask pos) 1
        pure ()
      else if old ≥ 0 then do
        Prog.write (.slot_ids pos) old
        Prog.write (.hit_flags (u32 old)) 1
        pure ()
      else pure ()) := fun old =>
    disciplined_ite (disciplined_write (by simp) (by simp) (fun h => h.elim) (disciplined_ret ()))
      (disciplined_ite (hhit old) (disciplined_ret ()))
  intro h hh
  refine ⟨fun _ => ⟨fun hs => hs.elim, ⟨_, rfl⟩, hrest NOT_FOUND _ (passed_access.mpr hh)⟩, ?_⟩
  exact fun v _ _ => ⟨trivial, hrest v _ (passed_access.mpr hh)⟩

theorem countSlots_disciplined : Disciplined d 2 (countSlots d tid) := by
  refine disciplined_bind (disciplined_foldEach fun c pos _ => ?_) fun c => ?_
  · refine disciplined_read (by simp) fun slot _ => disciplined_read (by simp) fun flag _ => ?_
    exact disciplined_ite (disciplined_ret _) (disciplined_ret _)
  · refine disciplined_write (by simp) (by simp) (fun h => h.elim) ?_
    exact disciplined_write (by simp) (by simp) (fun h => h.elim) (disciplined_ret c)

/-- A slot is copied from the LRU row to one of the compacted lists. -/
theorem scatterSlot_disciplined (c : ℤ × ℤ) (pos : ℕ) : Disciplined d 3 (scatterSlot c pos) := by
  refine disciplined_read (by simp) fun slot hslot => disciplined_read (by simp) fun flag _ => ?_
  have htype : 0 ≤ slot ∧ slot < d.SLOT_COUNT := hslot trivial
  refine disciplined_ite ?_ ?_
  · exact disciplined_write (by simp) (by simp) (fun _ => htype) (disciplined_ret _)
  · exact disciplined_write (by simp) (by simp) (fun _ => htype) (disciplined_ret _)

/-- Before the fourth one it writes the two lists, which are read only after it. -/
theorem scatterSlots_disciplined (local_counts : ℤ × ℤ) :
    Disciplined d 3 (scatterSlots d tid local_counts) := by
  refine disciplined_bind (disciplined_foldEach fun c i _ => ?_) fun pre => ?_
  · exact disciplined_read (by simp) fun _ _ => disciplined_read (by simp) fun _ _ =>
      disciplined_ret _
  refine disciplined_bind (disciplined_foldEach fun c pos _ => scatterSlot_disciplined c pos)
    fun _ => disciplined_ite ?_ (disciplined_ret ())
  exact disciplined_count (by omega) (disciplined_count (by omega) (disciplined_ret ()))

/-- Before the fifth one it counts its misses. -/
theorem countMisses_disciplined : Disciplined d 4 (countMisses d tid) := by
  refine disciplined_bind (disciplined_foldEach fun c pos _ => ?_) fun c => ?_
  · exact disciplined_read (by simp) fun _ _ => disciplined_ite (disciplined_ret _)
      (disciplined_ret _)
  · exact disciplined_write (by simp) (by simp) (fun h => h.elim) (disciplined_ret c)

/-- After it, one miss is installed: the list of evictable slots has been written by then. -/
theorem installMiss_disciplined (miss_offset : ℤ) (pos : ℕ) :
    Disciplined d 5 (installMiss d miss_offset pos) := by
  refine disciplined_read (by simp) fun miss _ => disciplined_ite (disciplined_ret _) ?_
  refine disciplined_read (by simp) fun evictable _ => ?_
  refine disciplined_read (by simp) fun victim_token _ => ?_
  refine disciplined_bind (disciplined_ite ?_ (disciplined_ret ())) fun _ => ?_
  · exact disciplined_write (by simp) (by simp) (fun h => h.elim) (disciplined_ret ())
  refine disciplined_read (by simp) fun token _ => ?_
  refine disciplined_write (by simp) (by simp) (fun h => h.elim) ?_
  refine disciplined_write (by simp) (by simp) (fun h => h.elim) ?_
  exact disciplined_write (by simp) (by simp) (fun h => h.elim) (disciplined_ret _)

theorem installMisses_disciplined (local_misses : ℤ) :
    Disciplined d 5 (installMisses d tid local_misses) := by
  refine disciplined_bind (disciplined_foldEach fun c i _ => ?_) fun pre => ?_
  · exact disciplined_read (by simp) fun _ _ => disciplined_ret _
  refine disciplined_bind (disciplined_foldEach fun c pos _ => installMiss_disciplined c pos)
    fun _ => disciplined_ite ?_ (disciplined_ret ())
  exact disciplined_count (by omega) (disciplined_ret ())

/-- The slot just read is stored: the cast to `int16_t` keeps it. -/
theorem writeLru_disciplined (hfits : d.Fits) (evictable_count miss_count stale_count pos : ℕ) :
    Disciplined d 6 (writeLru evictable_count miss_count stale_count pos) := by
  have hcopy : ∀ a : Cell, (∃ i, a = .evictable_slots i ∨ a = .hit_slots i) →
      Disciplined d 6 (do
        let slot ← Prog.read a
        Prog.write (.lru_slots pos) (i16 slot)
        pure ()) := by
    rintro a ⟨i, ha⟩ h hh v hv
    have hcell : a.HoldsSlot := by rcases ha with rfl | rfl <;> trivial
    obtain ⟨h0, h1⟩ := hv hcell
    have h16 := hfits.slot_i16
    have hcast : i16 v = v := i16_of_lt h0 (by omega)
    refine ⟨by rcases ha with rfl | rfl <;> trivial, ?_⟩
    dsimp only [Prog.bind_ret]
    rw [hcast]
    refine ⟨fun _ => ⟨h0, h1⟩, ⟨⟨h0, h1⟩, h, i, ?_⟩,
      disciplined_ret () _ (passed_access.mpr (passed_access.mpr hh))⟩
    rcases ha with rfl | rfl
    · exact Or.inl rfl
    · exact Or.inr rfl
  unfold writeLru
  exact disciplined_ite (hcopy _ ⟨_, Or.inl rfl⟩)
    (disciplined_ite (hcopy _ ⟨_, Or.inl rfl⟩) (hcopy _ ⟨_, Or.inr rfl⟩))

/-- At the end the order is written back. -/
theorem writeBack_disciplined (hfits : d.Fits) : Disciplined d 6 (writeBack d tid) := by
  intro h hh evictables _
  have hh' := passed_access (x := .load (.counters 1) evictables).mpr hh
  refine ⟨hh, fun misses _ => ⟨hh', ?_⟩⟩
  refine disciplined_bind (disciplined_forEach fun pos _ => writeLru_disciplined hfits _ _ _ pos)
    (fun _ => disciplined_forEach fun pos _ => ?_) _ (passed_access.mpr hh')
  refine disciplined_read (by simp) fun token _ => disciplined_read (by simp) fun slot _ => ?_
  refine disciplined_ite (disciplined_read (by simp) fun final _ => ?_) (disciplined_ret ())
  exact disciplined_write (by simp) (by simp) (fun h => h.elim) (disciplined_ret ())

/-- A phase, its barrier and the rest. -/
theorem obeys_phase {n : ℕ} {R : Type} {p : Thread R} {f : R → Thread Unit} (hp : Disciplined d n p)
    (hf : ∀ r h, Passed (n + 1) h → Obeys (CellType d) (Allowed d) (fun _ => Passed 6) (f r) h)
    {h : List (Option (Access Cell ℤ))} (hh : Passed n h) :
    Obeys (CellType d) (Allowed d) (fun _ => Passed 6) (do
      let r ← p
      Prog.barrier
      f r) h := by
  apply obeys_bind
  refine obeys_mono (hp h hh) fun r h' hh' => hf r _ ?_
  have hb : barriers h' = n := hh'
  exact (by rw [barriers_sync, hb] : barriers (h' ++ [none]) = n + 1)

/-- **The discipline of the kernel.** -/
theorem kernel_obeys (hfits : d.Fits) : Obeys (CellType d) (Allowed d) (fun _ => Passed 6)
    (asuHbmIndexLookupSimt d tid) [] := by
  unfold asuHbmIndexLookupSimt
  refine obeys_phase clearFlags_disciplined (fun _ h0 hh0 => ?_) (rfl : Passed 0 [])
  refine obeys_phase (disciplined_forEach fun pos _ => claimQuery_disciplined pos)
    (fun _ h1 hh1 => ?_) hh0
  refine obeys_phase countSlots_disciplined (fun local_counts h2 hh2 => ?_) hh1
  refine obeys_phase (scatterSlots_disciplined local_counts) (fun _ h3 hh3 => ?_) hh2
  refine obeys_phase countMisses_disciplined (fun local_misses h4 hh4 => ?_) hh3
  refine obeys_phase (installMisses_disciplined local_misses) (fun _ h5 hh5 => ?_) hh4
  exact writeBack_disciplined hfits h5 hh5

end Discipline

/-! ## The runs -/

section Runs

variable {d : Sizes} {s : LookupState} {query : List ℤ} {m0 : Store} {req_id : ℕ}

/-- The rows alone, under a memory that has something in every cell. -/
theorem Loaded.below (hm : Loaded d s query m0) : Below (initialStore d s query) m0 := by
  intro a v ha
  cases a <;> simp only [initialStore, Option.ite_none_right_eq_some, reduceCtorEq] at ha
  · rw [hm.fwd _ ha.1, ha.2]
  · rw [hm.bwd _ ha.1, ha.2]
  · rw [hm.lru _ ha.1, ha.2]
  · rw [hm.row _ ha.1, ha.2]

/-- The inputs of a run are of the types of their tensors. -/
theorem initialStore_typed (hr : Request d s query) :
    Typed (CellType d) (initialStore d s query) := by
  intro a v ha hslot
  cases a <;> simp only [initialStore, Option.ite_none_right_eq_some, reduceCtorEq,
    Option.some.injEq] at ha <;> try exact hslot.elim
  rename_i pos
  obtain ⟨hp, rfl⟩ := ha
  have hlt : pos < s.lru_slots.length := by rw [hr.wf.lru_length, hr.bwd_length]; exact hp
  have hmem := hr.wf.mem_lru.mp (read_mem hlt)
  rwa [hr.bwd_length] at hmem

/-- Barriers are common to all threads. -/
theorem barriers_own {τ : Type} [DecidableEq τ] (t u : τ) (log : List (Event τ Cell ℤ)) :
    barriers (own t log) = barriers (own u log) := by
  induction log with
  | nil => rfl
  | cons e log ih =>
      rw [← List.singleton_append, own_append, own_append]
      unfold barriers at ih ⊢
      rw [List.countP_append, List.countP_append, ih]
      congr 1
      cases e with
      | barrier => rfl
      | access w x =>
          have hnone : ∀ v, (own v [.access w x]).countP (fun y => y.isNone) = 0 := by
            intro v
            by_cases hv : w = v
            · subst hv; rw [own_self]; rfl
            · rw [own_of_ne hv]; rfl
          rw [hnone, hnone]

/-- What a run has loaded from a counter is what the counter holds at the end. -/
theorem counter_final (hr : Request d s query) {log : List (Event (Fin d.SIMT_THREADS) Cell ℤ)}
    {cfg : Config (Fin d.SIMT_THREADS) Cell ℤ Unit}
    (hrun : Run (launch d, initialStore d s query) log cfg) {t : Fin d.SIMT_THREADS} {i : ℕ} {v : ℤ}
    (hload : .access t (.load (.counters i) v) ∈ log) : cfg.2 (.counters i) = some v := by
  have hobeys : ∀ u : Fin d.SIMT_THREADS, Obeys (CellType d) (Allowed d) (fun _ => Passed 6)
      (launch d u) [] := fun u => kernel_obeys hr.fits
  obtain ⟨pre, post, rfl⟩ := List.append_of_mem hload
  have hat : barriers (own t pre) = 6 :=
    hrun.allowed (initialStore_typed hr) hobeys
  obtain ⟨c1, c2, h1, hs, h2⟩ := hrun.at_entry
  rw [h2.unchanged, hs.unchanged (a := .counters i) fun h => h.2]
  · cases hs with
    | load ht hv => exact hv
  -- a later write would come after the last barrier
  intro e he hw
  obtain ⟨mid, tail, rfl⟩ := List.append_of_mem he
  cases e with
  | barrier => exact hw
  | access u x =>
      rw [← List.singleton_append, ← List.append_assoc, ← List.append_assoc] at hrun
      have hx := hrun.allowed (initialStore_typed hr) hobeys
      have hmore : 6 ≤ barriers (own u ((pre ++ [.access t (.load (.counters i) v)]) ++ mid)) := by
        rw [barriers_own u t, own_append, own_append]
        unfold barriers at hat ⊢
        rw [List.countP_append, List.countP_append]
        omega
      obtain ⟨hcell, hwrites⟩ := hw
      cases x with
      | load a v => exact hwrites
      | casFail a v => exact hwrites
      | store a w =>
          obtain rfl : a = .counters i := hcell
          exact absurd hx (not_lt.mpr hmore)
      | casOk a e w =>
          obtain rfl : a = .counters i := hcell
          obtain ⟨_, h⟩ := hx
          cases h

/-- The two counts that a run has loaded are in order. -/
theorem counters_ordered (hr : Request d s query)
    {log : List (Event (Fin d.SIMT_THREADS) Cell ℤ)} {cfg : Config (Fin d.SIMT_THREADS) Cell ℤ Unit}
    (hrun : Run (launch d, initialStore d s query) log cfg) {t u : Fin d.SIMT_THREADS} {e k : ℤ}
    (he : .access t (.load (.counters 1) e) ∈ log)
    (hk : .access u (.load (.counters 2) k) ∈ log) : 0 ≤ k ∧ k ≤ e ∧ e ≤ d.SLOT_COUNT := by
  have : Nonempty (Fin d.SIMT_THREADS) := ⟨⟨0, hr.fits.threads_pos⟩⟩
  -- let the run go on to an end, where the counts are known
  have hc := (hrun.checked (kernel_counts hr (initialStore_loaded d s query))).1
  obtain ⟨c', hsteps, hst⟩ := exists_stuck (Cell.Inside d) cfg
  obtain ⟨log', hrun'⟩ := hrun.extend hsteps
  obtain ⟨_, -, E, K, hle, hslots, hE, hK⟩ := (hc.steps hsteps).final hst
  have h1 := counter_final hr hrun' (List.mem_append_left log' he)
  have h2 := counter_final hr hrun' (List.mem_append_left log' hk)
  rw [hE] at h1
  rw [hK] at h2
  have hv1 := Option.some.inj h1
  have hv2 := Option.some.inj h2
  omega

end Runs

/-- Where an access of request `req_id` goes: inside the request's own arrays, hence
inside the request's part of the tensor, and to an address that no element of another
request or of another array has. -/
structure OwnAccess (d : Sizes) (req_id : ℕ) (a : Cell) : Prop where
  inside : a.Inside d
  part : req_id * (a.address d req_id).1.stride d ≤ (a.address d req_id).2 ∧
    (a.address d req_id).2 < (req_id + 1) * (a.address d req_id).1.stride d
  work : ∀ x i, a.work = some (x, i) → i < x.length d ∧
    (a.address d req_id).2 = req_id * ASU_HBM_WORKSPACE_STRIDE d + x.base d + i
  alone : ∀ r < 2 ^ 32, ∀ b : Cell, b.Inside d → b.address d r = a.address d req_id →
    r = req_id ∧ b = a

/-- An access inside the arrays is one of the request's own rows, and its address does not wrap.
-/
theorem ownAccess {req_id : ℕ} (hreq : req_id < 2 ^ 32) {a : Cell} (ha : a.Inside asuSizes) :
    OwnAccess asuSizes req_id a where
  inside := ha
  part := address_own (asu_base_lt hreq) ha
  work := fun x i hw => by
    obtain ⟨hp, hin⟩ := Cell.work_spec (d := asuSizes) hw
    refine ⟨hin.mp ha, ?_⟩
    rw [address_eq (asu_base_lt hreq), hp, Nat.add_assoc]
    rfl
  alone := fun r hr b hb h => address_injective (asu_base_lt hr) (asu_base_lt hreq) hb ha h

/-- **Memory safety.** In every run of the kernel for a request that meets the README
invariants: the workspace arrays are disjoint and fit the slice; every access is an
access to the request's own elements; what is read of `evictable_slots` was written
before in the run; `evictable_count - miss_count` does not wrap; and the slot that is
stored to `lru_slots` is the one just read, which an `int16_t` can hold. -/
theorem simt_memory_safe {s : LookupState} {query : List ℤ} {m0 : Store} {req_id : ℕ}
    (hr : Request asuSizes s query) (hm : Loaded asuSizes s query m0) (hreq : req_id < 2 ^ 32)
    {log : List (Event (Fin asuSizes.SIMT_THREADS) Cell ℤ)}
    {cfg : Config (Fin asuSizes.SIMT_THREADS) Cell ℤ Unit}
    (hrun : Run (launch asuSizes, m0) log cfg) :
    (∀ x y : WorkArray, x.base asuSizes + x.length asuSizes ≤ ASU_HBM_WORKSPACE_STRIDE asuSizes ∧
      (x ≠ y → x.base asuSizes + x.length asuSizes ≤ y.base asuSizes ∨
        y.base asuSizes + y.length asuSizes ≤ x.base asuSizes)) ∧
    (∀ t x, .access t x ∈ log → OwnAccess asuSizes req_id x.cell) ∧
    (∀ pre t rank v post, log = pre ++ .access t (.load (.evictable_slots rank) v) :: post →
      ∃ e ∈ pre, e.WritesTo (.evictable_slots rank)) ∧
    (∀ t evictables misses, .access t (.load (.counters 1) evictables) ∈ log →
      .access t (.load (.counters 2) misses) ∈ log → misses ≤ evictables ∧
        (u32 ((u32 evictables : ℤ) - u32 misses) : ℤ) = evictables - misses) ∧
    (∀ pre t pos slot post, log = pre ++ .access t (.store (.lru_slots pos) slot) :: post →
      JustRead asuSizes (own t pre) slot ∧ i16 slot = slot) := by
  have : Nonempty (Fin asuSizes.SIMT_THREADS) := ⟨⟨0, hr.fits.threads_pos⟩⟩
  have hstart := kernel_correct hr (initialStore_loaded asuSizes s query)
  -- the same log from a workspace that holds nothing
  obtain ⟨m, hrun', -, -⟩ := hrun.erased hstart hm.below
  refine ⟨fun x y => ⟨x.fits, WorkArray.disjoint⟩, fun t x hx => ?_, ?_, ?_, ?_⟩
  · exact ownAccess hreq ((hrun.checked (kernel_correct hr hm)).2 _ hx)
  · rintro pre t rank v post rfl
    exact hrun.written_before hstart hm.below rfl
  · intro t evictables misses he hk
    obtain ⟨h0, hle, hslots⟩ := counters_ordered hr hrun' he hk
    have h16 := hr.fits.slot_i16
    have he' : u32 evictables = evictables.toNat := u32_of_nonneg (by omega) (by omega)
    have hk' : u32 misses = misses.toNat := u32_of_nonneg h0 (by omega)
    refine ⟨hle, ?_⟩
    rw [he', hk', u32_of_nonneg (by omega) (by omega)]
    omega
  · rintro pre t pos slot post rfl
    have hjust : JustRead asuSizes (own t pre) slot :=
      hrun'.allowed (initialStore_typed hr) fun u => kernel_obeys hr.fits
    have h16 := hr.fits.slot_i16
    exact ⟨hjust, i16_of_lt hjust.1.1 (by have := hjust.1.2; omega)⟩

/-- A complete run of the row in which token 7 is queried twice, as request 3. -/
theorem simt_memory_safe_twice :
    ∃ log cfg, Run (launch asuSizes,
        initialStore asuSizes (emptyState asuSizes) (twiceRow asuSizes)) log cfg ∧
      Stuck (Cell.Inside asuSizes) cfg ∧
      (∀ t x, .access t x ∈ log → OwnAccess asuSizes 3 x.cell) ∧
      ∀ pre t rank v post, log = pre ++ .access t (.load (.evictable_slots rank) v) :: post →
        ∃ e ∈ pre, e.WritesTo (.evictable_slots rank) := by
  have hq : 2 ≤ asuSizes.QUERY_COUNT := by decide
  obtain ⟨cfg, hsteps, hst⟩ := exists_completes asuSizes_fits
    (initialStore asuSizes (emptyState asuSizes) (twiceRow asuSizes))
  obtain ⟨log, hrun⟩ := Run.start.extend hsteps
  have hreq : 3 < 2 ^ 32 := by omega
  have hsafe := simt_memory_safe (emptyState_request asuSizes_fits hq)
    (initialStore_loaded _ _ _) hreq hrun
  exact ⟨_, cfg, hrun, hst, hsafe.2.1, hsafe.2.2.1⟩

end AsuAscend.Simt
