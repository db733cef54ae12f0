/-
Phases of single assignment.

In such a phase each cell is either only read, or is given one value and no other (`Phase.after`),
so that nothing a thread finds depends on how far the others are. `Phase.Assigns` is the
sequential predicate of one thread, with the list of the cells that it assigns: it knows the value
of every load. Cells of `loose` are left out of account; the threads may race for them, and a
thread that loads one has to cope with any value.

A phase whose threads all meet `Assigns` is correct in every schedule (`correct_assigned_next`,
`correct_assigned_last`), and a log holds each assigned cell as often as the threads' lists do
(`Run.count_written`).

## Beside race-free phases

`RaceFree` gives cells to threads by ownership. Here a thread comes with the list of the cells that
it writes, so that it can be counted how often each is written; and `loose` cells admit a race next
to the outputs. A cell that is neither loose nor assigned keeps its value for the whole phase, and
an assigned cell is not read in the phase in which it is written. There is no compare-and-swap in
such a phase, which is for cells that threads compete for.
-/
import AsuAscend.Lib.AccessLogs
import AsuAscend.Lib.WorkSplit
import Mathlib.Algebra.BigOperators.Group.Finset.Piecewise
import Mathlib.Data.Fintype.Basic

set_option autoImplicit false

open Function (update)

namespace BarrierThreads

open Prog Contract WorkSplit

variable {τ A V R S : Type}

/-! ## One thread -/

/-- What a phase starts from and, cell by cell, what it ends in. -/
structure Phase (A V : Type) where
  dom : A → Prop
  loose : A → Prop
  assigned : A → Prop
  before : Mem A V
  after : Mem A V
  frame : ∀ a, ¬ assigned a → after a = before a
  sharp : ∀ a, assigned a → ¬ loose a

namespace Phase

variable (F : Phase A V)

/-- A thread on its own: it loads only cells that the phase does not assign, stores to an assigned
cell what `after` has there, and returns with `E` of the cells it has assigned, the latest last. -/
def Assigns (E : R → List A → Prop) : Prog A V R → List A → Prop
  | .ret r, w => E r w
  | .load a k, w => F.dom a ∧ ∃ v, F.before a = some v ∧
      (¬ F.loose a ∧ ¬ F.assigned a ∧ Assigns E (k v) w ∨ F.loose a ∧ ∀ v, Assigns E (k v) w)
  | .store a v k, w => F.dom a ∧
      (F.assigned a ∧ F.after a = some v ∧ Assigns E k (w ++ [a]) ∨ F.loose a ∧ Assigns E k w)
  | .cas _ _ _ _, _ => False
  | .sync _, _ => False

variable {F} {E E' : R → List A → Prop} {w : List A}

theorem Assigns.mono {p : Prog A V R} (h : F.Assigns E p w) (hE : ∀ r w, E r w → E' r w) :
    F.Assigns E' p w := by
  induction p generalizing w with
  | ret r => exact hE _ _ h
  | sync k _ => exact h
  | load a k ih =>
      obtain ⟨hd, v, hv, ⟨hl, ha, hk⟩ | ⟨hl, hk⟩⟩ := h
      · exact ⟨hd, v, hv, Or.inl ⟨hl, ha, ih v hk⟩⟩
      · exact ⟨hd, v, hv, Or.inr ⟨hl, fun v => ih v (hk v)⟩⟩
  | store a v k ih =>
      obtain ⟨hd, ⟨ha, hv, hk⟩ | ⟨hl, hk⟩⟩ := h
      · exact ⟨hd, Or.inl ⟨ha, hv, ih hk⟩⟩
      · exact ⟨hd, Or.inr ⟨hl, ih hk⟩⟩
  | cas a e d k _ => exact h

/-- Two programs in sequence; the cells assigned add up. -/
theorem assigns_bind {p : Prog A V R} {f : R → Prog A V S} {E : S → List A → Prop}
    (h : F.Assigns (fun r w => F.Assigns E (f r) w) p w) : F.Assigns E (p.bind f) w := by
  induction p generalizing w with
  | ret r => exact h
  | sync k _ => exact h
  | load a k ih =>
      obtain ⟨hd, v, hv, ⟨hl, ha, hk⟩ | ⟨hl, hk⟩⟩ := h
      · exact ⟨hd, v, hv, Or.inl ⟨hl, ha, ih v hk⟩⟩
      · exact ⟨hd, v, hv, Or.inr ⟨hl, fun v => ih v (hk v)⟩⟩
  | store a v k ih =>
      obtain ⟨hd, ⟨ha, hv, hk⟩ | ⟨hl, hk⟩⟩ := h
      · exact ⟨hd, Or.inl ⟨ha, hv, ih hk⟩⟩
      · exact ⟨hd, Or.inr ⟨hl, ih hk⟩⟩
  | cas a e d k _ => exact h

/-- A load of a cell that nobody assigns. -/
theorem assigns_read {a : A} {v : V} {f : V → Prog A V R} (hd : F.dom a) (hl : ¬ F.loose a)
    (ha : ¬ F.assigned a) (hv : F.before a = some v) (hk : F.Assigns E (f v) w) :
    F.Assigns E (Prog.read a >>= f) w := ⟨hd, v, hv, Or.inl ⟨hl, ha, hk⟩⟩

/-- A load of a loose cell may find anything. -/
theorem assigns_read_loose {a : A} {v : V} {f : V → Prog A V R} (hd : F.dom a) (hl : F.loose a)
    (hv : F.before a = some v) (hk : ∀ v, F.Assigns E (f v) w) :
    F.Assigns E (Prog.read a >>= f) w := ⟨hd, v, hv, Or.inr ⟨hl, hk⟩⟩

/-- An assignment, of the value that the cell is to have. -/
theorem assigns_write {a : A} {v : V} {f : Unit → Prog A V R} (hd : F.dom a) (ha : F.assigned a)
    (hv : F.after a = some v) (hk : F.Assigns E (f ()) (w ++ [a])) :
    F.Assigns E (Prog.write a v >>= f) w := ⟨hd, Or.inl ⟨ha, hv, hk⟩⟩

/-- A store into a loose cell counts for nothing. -/
theorem assigns_write_loose {a : A} {v : V} {f : Unit → Prog A V R} (hd : F.dom a) (hl : F.loose a)
    (hk : F.Assigns E (f ()) w) : F.Assigns E (Prog.write a v >>= f) w := ⟨hd, Or.inr ⟨hl, hk⟩⟩

/-- A loop over the indices from `b` up to `e`: what it carries and the cells assigned so far are
known at each index. -/
theorem assigns_span (I : ℕ → R → List A → Prop) {b e : ℕ} {body : R → ℕ → Prog A V R} {r : R}
    (h0 : I b r w)
    (hbody : ∀ p r w, b ≤ p → p < e → I p r w → F.Assigns (fun r' w => I (p + 1) r' w) (body r p) w) :
    F.Assigns (fun r' w => I (b + (e - b)) r' w) (foldEach (span b e) r body) w := by
  unfold span
  -- on the number of indices left, `p` being the next one
  have key : ∀ n p r w, b ≤ p → p + n = b + (e - b) → I p r w →
      F.Assigns (fun r' w => I (b + (e - b)) r' w) (foldEach (List.range' p n) r body) w := by
    intro n
    induction n with
    | zero =>
        intro p r w _ hlast hI
        rw [Nat.add_zero] at hlast
        exact hlast ▸ hI
    | succ n ih =>
        intro p r w hbp hlast hI
        refine assigns_bind ((hbody p r w hbp (by omega) hI).mono fun r' w' hI' => ?_)
        exact ih (p + 1) r' w' (by omega) (by omega) hI'
  exact key (e - b) b r w (le_refl b) rfl h0

/-! ## All threads -/

variable [DecidableEq A]

/-- What every access of the phase keeps. -/
structure Keeps (F : Phase A V) (m : Mem A V) : Prop where
  sharp : ∀ a, ¬ F.loose a → m a = F.before a ∨ F.assigned a ∧ m a = F.after a
  filled : ∀ a v, F.loose a → F.before a = some v → ∃ u, m a = some u

/-- Once a cell has its value, it has it to the end. -/
def contract (F : Phase A V) : Contract τ Unit A V where
  inv := fun _ m => F.Keeps m
  rely := fun _ s s' => ∀ a, ¬ F.loose a → s.2 a = F.after a → s'.2 a = F.after a
  refl := fun _ _ _ _ h => h
  trans := fun _ _ _ _ h h' a hl ha => h' a hl (h a hl ha)

omit [DecidableEq A] in
/-- At the start the memory is the one before. -/
theorem keeps_start : F.Keeps F.before := ⟨fun _ _ => Or.inl rfl, fun _ v _ hv => ⟨v, hv⟩⟩

/-- A store that is allowed keeps every cell at its old value or its new one. -/
theorem Keeps.store {m : Mem A V} {a : A} {v : V} (h : F.Keeps m)
    (ha : F.loose a ∨ F.assigned a ∧ F.after a = some v) : F.Keeps (update m a (some v)) := by
  refine ⟨fun b hb => ?_, fun b u hb hu => ?_⟩
  · by_cases hba : b = a
    · subst hba
      obtain ⟨hb, hv⟩ := ha.resolve_left hb
      rw [Function.update_self]
      exact Or.inr ⟨hb, hv.symm⟩
    · rw [Function.update_of_ne hba]
      exact h.sharp b hb
  · by_cases hba : b = a
    · subst hba
      rw [Function.update_self]
      exact ⟨v, rfl⟩
    · rw [Function.update_of_ne hba]
      exact h.filled b u hb hu

theorem contract_move {m : Mem A V} {t : τ} {a : A} {v : V} (h : F.Keeps m)
    (ha : F.loose a ∨ F.assigned a ∧ F.after a = some v) :
    (F.contract (τ := τ)).Move t () m () (update m a (some v)) := by
  refine ⟨h.store ha, fun u _ b hb hm => ?_⟩
  by_cases hba : b = a
  · subst hba
    exact (Function.update_self _ _ _).trans (ha.resolve_left hb).2.symm
  · exact (Function.update_of_ne hba _ _).trans hm

/-- The cells of `w` have their values. -/
def Done (F : Phase A V) (w : List A) (m : Mem A V) : Prop := ∀ a ∈ w, ¬ F.loose a ∧ m a = F.after a

omit [DecidableEq A] in
/-- What a thread has assigned stays assigned, whatever the others do. -/
theorem Done.env {m m' : Mem A V} (h : F.Done w m) {t : τ}
    (hr : (F.contract (τ := τ)).rely t ((), m) ((), m')) : F.Done w m' :=
  fun a ha => ⟨(h a ha).1, hr a (h a ha).1 (h a ha).2⟩

theorem Done.assign {m : Mem A V} (h : F.Done w m) {a : A} {v : V} (ha : F.assigned a)
    (hv : F.after a = some v) : F.Done (w ++ [a]) (update m a (some v)) := by
  intro b hb
  by_cases hba : b = a
  · subst hba
    rw [Function.update_self]
    exact ⟨F.sharp b ha, hv.symm⟩
  · rw [Function.update_of_ne hba]
    exact h b ((List.mem_append.mp hb).resolve_right fun h1 => hba (List.mem_singleton.mp h1))

/-- A loose cell more or less makes no difference. -/
theorem Done.store_loose {m : Mem A V} (h : F.Done w m) {a : A} (ha : F.loose a) (v : Option V) :
    F.Done w (update m a v) := by
  intro b hb
  obtain ⟨hl, hm⟩ := h b hb
  have hba : b ≠ a := fun heq => hl (heq ▸ ha)
  exact ⟨hl, (Function.update_of_ne hba _ _).trans hm⟩

/-- The others cannot disturb a thread. -/
theorem Assigns.safe {p : Prog A V R} (h : F.Assigns E p w) {t : τ} {m : Mem A V}
    (hw : F.Done w m) : (F.contract (τ := τ)).Safe F.dom t
      (fun e _ m => ∃ r w, e = .ret r ∧ E r w ∧ F.Done w m) p () m := by
  induction p generalizing w m with
  | ret r => exact fun _ m' hr _ => ⟨r, w, rfl, h, hw.env hr⟩
  | sync k _ => exact absurd h id
  | load a k ih =>
      intro _ m' hr hi
      obtain ⟨hd, v, hv, ⟨hl, ha, hk⟩ | ⟨hl, hk⟩⟩ := h
      · have hm := (hi.sharp a hl).resolve_right fun hno => ha hno.1
        exact ⟨hd, v, hm.trans hv, ih v hk (hw.env hr)⟩
      · obtain ⟨u, hu⟩ := hi.filled a v hl hv
        exact ⟨hd, u, hu, ih u (hk u) (hw.env hr)⟩
  | store a v k ih =>
      intro _ m' hr hi
      obtain ⟨hd, ⟨ha, hv, hk⟩ | ⟨hl, hk⟩⟩ := h
      · exact ⟨hd, (), contract_move hi (Or.inr ⟨ha, hv⟩), ih hk ((hw.env hr).assign ha hv)⟩
      · exact ⟨hd, (), contract_move hi (Or.inl hl), ih hk ((hw.env hr).store_loose hl _)⟩
  | cas a e d k _ => exact absurd h id

omit [DecidableEq A] in
/-- Where every assigned cell is in some thread's list, the phase ends in `after`. -/
theorem after_of_done {cells : τ → List A} (hcells : ∀ a, F.assigned a → ∃ t, a ∈ cells t)
    {m : Mem A V} (hi : F.Keeps m) (h : ∀ t, F.Done (cells t) m) {a : A} (hl : ¬ F.loose a) :
    m a = F.after a := by
  by_cases ha : F.assigned a
  · obtain ⟨t, ht⟩ := hcells a ha
    exact (h t a ht).2
  · rw [F.frame a ha]
    exact (hi.sharp a hl).resolve_right fun hno => ha hno.1

end Phase

section Correct

variable [DecidableEq A] (F : Phase A V) (cells : τ → List A)
  (hcells : ∀ a, F.assigned a → ∃ t, a ∈ cells t)

include hcells

/-- **A phase of single assignment before a barrier.** -/
theorem correct_assigned_next {Post : (τ → S) → Mem A V → Prop} {p : τ → Prog A V R}
    {rest : τ → R → Prog A V S} (res : τ → R)
    (h : ∀ t, F.Assigns (fun r w => r = res t ∧ w = cells t) (p t) [])
    (hnext : ∀ m, F.Keeps m → (∀ a, ¬ F.loose a → m a = F.after a) →
      Correct F.dom Post (fun t => rest t (res t)) m) :
    Correct F.dom Post (fun t => (p t).bind fun r => .sync (rest t r)) F.before := by
  refine .next F.contract (fun t k _ m => k = rest t (res t) ∧ F.Done (cells t) m)
    ⟨(), F.keeps_start, fun t => ?_⟩ ?_
  · refine safe_bind F.keeps_start ?_
    refine ((h t).safe fun a ha => absurd ha List.not_mem_nil).mono ?_
    rintro e _ m _ ⟨r, w, rfl, ⟨rfl, rfl⟩, hdone⟩
    exact ⟨_, rfl, fun _ m' hr _ => ⟨_, rfl, rfl, hdone.env hr⟩⟩
  · intro ks _ m hi hE
    obtain rfl : ks = fun t => rest t (res t) := funext fun t => (hE t).1
    exact hnext m hi fun a hl => F.after_of_done hcells hi (fun t => (hE t).2) hl

/-- **The last phase.** -/
theorem correct_assigned_last {Post : (τ → R) → Mem A V → Prop} {p : τ → Prog A V R} (res : τ → R)
    (h : ∀ t, F.Assigns (fun r w => r = res t ∧ w = cells t) (p t) [])
    (hpost : ∀ m, F.Keeps m → (∀ a, ¬ F.loose a → m a = F.after a) → Post res m) :
    Correct F.dom Post p F.before := by
  refine .last F.contract (fun t r _ m => r = res t ∧ F.Done (cells t) m)
    ⟨(), F.keeps_start, fun t => ?_⟩ ?_
  · refine ((h t).safe fun a ha => absurd ha List.not_mem_nil).mono ?_
    rintro e _ m _ ⟨r, w, rfl, ⟨rfl, rfl⟩, hdone⟩
    exact ⟨_, rfl, rfl, hdone⟩
  · intro rs _ m hi hE
    obtain rfl : rs = res := funext fun t => (hE t).1
    exact hpost m hi fun a hl => F.after_of_done hcells hi (fun t => (hE t).2) hl

end Correct

/-! ## Logs -/

/-- The cell that the access changes. -/
def Access.target : Access A V → Option A
  | load _ _ => none
  | store a _ => some a
  | casOk a _ _ => some a
  | casFail _ _ => none

/-- The cells that a run has written, one entry for each write. -/
def written (log : List (Event τ A V)) : List A :=
  log.filterMap fun
    | .access _ x => x.target
    | .barrier => none

/-- The same for the history of one thread. -/
def stored (h : List (Option (Access A V))) : List A := h.filterMap fun x => x.bind Access.target

section Logs

variable [DecidableEq A] [DecidableEq τ]

omit [DecidableEq A] in
/-- What has been stored after one access more. -/
theorem stored_concat (h : List (Option (Access A V))) (x : Access A V) :
    stored (h ++ [some x]) = stored h ++ x.target.toList := by
  unfold stored
  rw [List.filterMap_append]
  cases hx : x.target with
  | none => simp [hx]
  | some a => simp [hx]

/-- The writes of a run are the writes of its threads. -/
theorem count_written [Fintype τ] (log : List (Event τ A V)) (a : A) :
    (written log).count a = ∑ t, (stored (own t log)).count a := by
  induction log with
  | nil => simp [written, stored, own]
  | cons e log ih =>
      cases e with
      | barrier =>
          have hown : ∀ t, stored (own t (.barrier :: log)) = stored (own t log) := fun _ => rfl
          simp only [hown]
          exact ih
      | access u x =>
          -- one more entry, of thread `u` alone
          have hone : ∀ t, (stored (own t (.access u x :: log))).count a =
              (if u = t then x.target.toList.count a else 0) + (stored (own t log)).count a := by
            intro t
            by_cases hut : u = t
            · have hown : own t (.access u x :: log) = some x :: own t log := by simp [own, hut]
              rw [hown, if_pos hut]
              unfold stored
              cases hx : x.target <;> simp [hx, List.count_cons, Nat.add_comm]
            · have hown : own t (.access u x :: log) = own t log := by simp [own, hut]
              rw [hown, if_neg hut, Nat.zero_add]
          have hhead : (written (.access u x :: log)).count a =
              x.target.toList.count a + (written log).count a := by
            unfold written
            cases hx : x.target <;> simp [hx, List.count_cons, Nat.add_comm]
          simp only [hone, hhead, ih, Finset.sum_add_distrib, Finset.sum_ite_eq, Finset.mem_univ, if_true]

/-- The history has the writes of `w`, the cells of `loose` aside, on top of `n`. -/
def Stored (loose : A → Prop) (n : A → ℕ) (w : List A) (h : List (Option (Access A V))) : Prop :=
  ∀ a, ¬ loose a → (stored h).count a = n a + w.count a

/-- What a cell may hold, from the start of a run of single-assignment phases to its end: `last` or,
before, nothing. -/
def held (loose : A → Prop) (last : Mem A V) (a : A) (v : V) : Prop := loose a ∨ last a = some v

omit [DecidableEq τ] in
/-- A thread that meets `Assigns` obeys the types that `held` gives the cells. -/
theorem Phase.Assigns.obeys {F : Phase A V} {E : R → List A → Prop} {p : Prog A V R} {w : List A}
    (h : F.Assigns E p w) {last : Mem A V}
    (hbefore : ∀ a v, ¬ F.loose a → F.before a = some v → last a = some v)
    (hafter : ∀ a v, F.assigned a → F.after a = some v → last a = some v) {n : A → ℕ}
    {hist : List (Option (Access A V))} (hhist : Stored F.loose n w hist) :
    Obeys (held F.loose last) (fun _ _ => True)
      (fun r hist => ∃ w, E r w ∧ Stored F.loose n w hist) p hist := by
  induction p generalizing w hist with
  | ret r => exact ⟨w, h, hhist⟩
  | sync k _ => exact absurd h id
  | load a k ih =>
      intro v hv
      -- a load leaves the list of stores as it is
      have hsame : ∀ {w}, Stored F.loose n w hist → Stored F.loose n w (hist ++ [some (.load a v)]) := by
        intro w hw b hb
        rw [stored_concat]
        exact (congrArg _ (List.append_nil _)).trans (hw b hb)
      obtain ⟨-, u, hu, ⟨hl, -, hk⟩ | ⟨hl, hk⟩⟩ := h
      · -- the value is the one that the phase found there
        have hlast := hv.resolve_left hl
        rw [hbefore a u hl hu] at hlast
        cases hlast
        exact ⟨trivial, ih _ hk (hsame hhist)⟩
      · exact ⟨trivial, ih _ (hk v) (hsame hhist)⟩
  -- an assigned cell gets its value, and counts once
  | store a v k ih =>
      obtain ⟨-, ⟨ha, hv, hk⟩ | ⟨hl, hk⟩⟩ := h
      · refine ⟨Or.inr (hafter a v ha hv), trivial, ih hk fun b hb => ?_⟩
        rw [stored_concat, List.count_append, List.count_append, hhist b hb, Nat.add_assoc]
        rfl
      -- a loose cell is not counted
      · refine ⟨Or.inl hl, trivial, ih hk fun b hb => ?_⟩
        have hba : a ≠ b := fun heq => hb (heq ▸ hl)
        rw [stored_concat, List.count_append, hhist b hb]
        show n b + w.count b + [a].count b = _
        rw [List.count_singleton, if_neg (by simpa using hba), Nat.add_zero]
  | cas a e d k _ => exact absurd h id

omit [DecidableEq τ] in
/-- Two phases of one thread. -/
theorem obeys_twice {F F' : Phase A V} {p : Prog A V R} {q : R → Prog A V S} {res : R} {w w' : List A}
    (h : F.Assigns (fun r u => r = res ∧ u = w) p []) (h' : F'.Assigns (fun _ u => u = w') (q res) [])
    (hloose : F'.loose = F.loose) (hlink : F'.before = F.after)
    (hbefore : ∀ a v, ¬ F.loose a → F.before a = some v → F'.after a = some v)
    (hkeep : ∀ a, F.assigned a → ¬ F'.assigned a) :
    Obeys (held F.loose F'.after) (fun _ _ => True)
      (fun _ hist => ∀ a, ¬ F.loose a → (stored hist).count a = w.count a + w'.count a)
      (p.bind fun r => .sync (q r)) [] := by
  have hafter : ∀ a v, F.assigned a → F.after a = some v → F'.after a = some v := by
    intro a v ha hv
    rw [F'.frame a (hkeep a ha), hlink, hv]
  have hbefore' : ∀ a v, ¬ F'.loose a → F'.before a = some v → F'.after a = some v := by
    intro a v hl hv
    rw [hlink] at hv
    by_cases ha : F.assigned a
    · exact hafter a v ha hv
    · rw [F.frame a ha] at hv
      exact hbefore a v (hloose ▸ hl) hv
  have hstart : Stored F.loose (fun _ => 0) [] ([] : List (Option (Access A V))) := fun _ _ => rfl
  refine obeys_bind (obeys_mono (h.obeys hbefore hafter hstart) ?_)
  rintro r hist ⟨u, ⟨hr, hu⟩, hfirst⟩
  rw [hu] at hfirst
  rw [hr]
  -- the second phase adds its cells to those of the first
  have hnext : Stored F'.loose (fun a => w.count a) [] (hist ++ [none]) := by
    intro a hl
    have hsame : stored (hist ++ [none]) = stored hist := by
      unfold stored
      rw [List.filterMap_append]
      exact List.append_nil _
    rw [hsame, hfirst a (hloose ▸ hl), Nat.zero_add]
    rfl
  show Obeys (held F.loose F'.after) _ _ (q res) (hist ++ [none])
  rw [← hloose]
  refine obeys_mono (h'.obeys hbefore' (fun _ _ _ hv => hv) hnext) ?_
  rintro _ hist' ⟨_, rfl, hsecond⟩
  exact hsecond

/-- **The writes of a run of two phases** that ends, from a start in which the cells hold nothing
but their last value. -/
theorem Run.count_written_twice [Fintype τ] {F F' : Phase A V} {p : τ → Prog A V R}
    {q : τ → R → Prog A V S} {res : τ → R} {cells cells' : τ → List A}
    (h : ∀ t, F.Assigns (fun r w => r = res t ∧ w = cells t) (p t) [])
    (h' : ∀ t, F'.Assigns (fun _ w => w = cells' t) (q t (res t)) [])
    (hloose : F'.loose = F.loose) (hlink : F'.before = F.after)
    (hbefore : ∀ a v, ¬ F.loose a → F.before a = some v → F'.after a = some v)
    (hkeep : ∀ a, F.assigned a → ¬ F'.assigned a) {log : List (Event τ A V)} {c : Config τ A V S}
    (hrun : Run (fun t => (p t).bind fun r => .sync (q t r), F.before) log c) {rs : τ → S}
    (hret : ∀ t, c.1 t = .ret (rs t)) {a : A} (ha : ¬ F.loose a) :
    (written log).count a = ∑ t, ((cells t).count a + (cells' t).count a) := by
  have htyped : Typed (held F.loose F'.after) F.before := by
    intro b v hv
    by_cases hl : F.loose b
    · exact Or.inl hl
    · exact Or.inr (hbefore b v hl hv)
  have hall := (hrun.obeys htyped fun t => obeys_twice (h t) (h' t) hloose hlink hbefore hkeep).2
  rw [count_written]
  refine Finset.sum_congr rfl fun t _ => ?_
  have hend := hall t
  rw [hret t] at hend
  exact hend a ha

omit [DecidableEq τ] in
/-- Lists that have no entry twice, nor two of them the same entry. -/
theorem sum_count_of_mem [Fintype τ] {cells : τ → List A} (hnodup : ∀ t, (cells t).Nodup)
    (hdisj : ∀ t u a, a ∈ cells t → a ∈ cells u → t = u) {t : τ} {a : A} (ha : a ∈ cells t) :
    ∑ t, (cells t).count a = 1 := by
  rw [Finset.sum_eq_single_of_mem t (Finset.mem_univ t), List.count_eq_one_of_mem (hnodup t) ha]
  intro u _ hut
  exact List.count_eq_zero.mpr fun hu => hut (hdisj u t a hu ha)

omit [DecidableEq τ] in
/-- A cell that no thread assigns is assigned by none of them. -/
theorem sum_count_of_not_mem [Fintype τ] {cells : τ → List A} {a : A} (ha : ∀ t, a ∉ cells t) :
    ∑ t, (cells t).count a = 0 :=
  Finset.sum_eq_zero fun t _ => List.count_eq_zero.mpr (ha t)

/-- The memory with the cells of `out` empty. -/
def erase (out : A → Prop) [DecidablePred out] (m : Mem A V) : Mem A V :=
  fun a => if out a then none else m a

omit [DecidableEq A] in
/-- Outside the part that is erased the memory is as it was. -/
theorem erase_of_not {out : A → Prop} [DecidablePred out] {m : Mem A V} {a : A} (ha : ¬ out a) :
    erase out m a = m a := if_neg ha

omit [DecidableEq A] in
/-- What is left after erasing was there before. -/
theorem erase_eq_some {out : A → Prop} [DecidablePred out] {m : Mem A V} {a : A} {v : V}
    (h : erase out m a = some v) : ¬ out a ∧ m a = some v := by
  by_cases ha : out a
  · rw [show erase out m a = none from if_pos ha] at h
    cases h
  · exact ⟨ha, (erase_of_not ha).symm.trans h⟩

/-- **Each cell of `out` is written once** in a run of two phases that ends, and no cell besides
those of `out` and the loose ones, if the threads share out the cells of `out` and the phases get on
without what the cells held before. -/
theorem Run.count_written_once [Fintype τ] [Nonempty τ] {dom : A → Prop}
    {Post : (τ → S) → Mem A V → Prop} {out : A → Prop} [DecidablePred out] {m0 : Mem A V}
    {F F' : Phase A V} {p : τ → Prog A V R} {q : τ → R → Prog A V S} {res : τ → R}
    {cells cells' : τ → List A}
    (hcorrect : Correct dom Post (fun t => (p t).bind fun r => .sync (q t r)) (erase out m0))
    (hstart : F.before = erase out m0)
    (h : ∀ t, F.Assigns (fun r w => r = res t ∧ w = cells t) (p t) [])
    (h' : ∀ t, F'.Assigns (fun _ w => w = cells' t) (q t (res t)) [])
    (hloose : F'.loose = F.loose) (hlink : F'.before = F.after)
    (hnodup : ∀ t, (cells t ++ cells' t).Nodup)
    (hdisj : ∀ t u a, a ∈ cells t ++ cells' t → a ∈ cells u ++ cells' u → t = u)
    (hout : ∀ a, out a ↔ ∃ t, a ∈ cells t ++ cells' t)
    (hkeep : ∀ a, F.assigned a → ¬ F'.assigned a) (hframe : ∀ a, ¬ out a → F'.after a = F.before a)
    {log : List (Event τ A V)} {c : Config τ A V S}
    (hrun : Run (fun t => (p t).bind fun r => .sync (q t r), m0) log c) {rs : τ → S}
    (hret : ∀ t, c.1 t = .ret (rs t)) {a : A} (ha : ¬ F.loose a) :
    (written log).count a = if out a then 1 else 0 := by
  -- the run has the log of a run from the memory in which the outputs are empty
  obtain ⟨m, hrun', -, -⟩ := hrun.erased hcorrect fun b v hv => (erase_eq_some hv).2
  rw [← hstart] at hrun'
  have hbefore : ∀ b v, ¬ F.loose b → F.before b = some v → F'.after b = some v := by
    intro b v _ hv
    have hv' := hv
    rw [hstart] at hv'
    exact (hframe b (erase_eq_some hv').1).trans hv
  have hcount := hrun'.count_written_twice h h' hloose hlink hbefore hkeep hret ha
  simp only [← List.count_append] at hcount
  rw [hcount]
  split_ifs with hb
  · obtain ⟨t, ht⟩ := (hout a).mp hb
    exact sum_count_of_mem hnodup hdisj ht
  · exact sum_count_of_not_mem fun t ht => hb ((hout a).mpr ⟨t, ht⟩)

/-! ## Every schedule -/

/-- No schedule of the threads goes on for ever, and where one can go no further all threads have
returned, with `Post` of the log and the memory. -/
def EverySchedule (progs : τ → Prog A V R) (m0 : Mem A V)
    (Post : List (Event τ A V) → Mem A V → Prop) : Prop :=
  (¬ ∃ run : ℕ → Config τ A V R, run 0 = (progs, m0) ∧ ∀ n, ∃ e, Does e (run n) (run (n + 1))) ∧
  ∀ log cfg, Run (progs, m0) log cfg → (∀ e cfg', ¬ Does e cfg cfg') →
    (∀ t, ∃ r, cfg.1 t = .ret r) ∧ Post log cfg.2

end Logs

/-- A correct start, whatever the schedule. -/
theorem Correct.everySchedule {θ : Type} [LinearOrder θ] [Finite θ] [Nonempty θ] [DecidableEq A]
    {dom : A → Prop} {Post : (θ → R) → Mem A V → Prop} {progs : θ → Prog A V R} {m0 : Mem A V}
    (h : Correct dom Post progs m0) {Q : List (Event θ A V) → Mem A V → Prop}
    (hQ : ∀ log cfg rs, Run (progs, m0) log cfg → (∀ t, cfg.1 t = .ret (rs t)) → Post rs cfg.2 →
      Q log cfg.2) : EverySchedule progs m0 Q := by
  constructor
  · rintro ⟨run, -, hdoes⟩
    refine no_infinite_run (fun _ => True) ⟨run, fun n => ?_⟩
    obtain ⟨e, he⟩ := hdoes n
    exact he.step (by cases e <;> trivial)
  · intro log cfg hrun hend
    have hcor := (hrun.checked h).1
    have hstuck : Stuck dom cfg := by
      intro cfg' hs
      obtain ⟨e, -, he⟩ := hs.does
      exact hend e cfg' he
    obtain ⟨rs, hret, hpost⟩ := hcor.final hstuck
    have hret' : ∀ t, cfg.1 t = .ret (rs t) := fun t => by rw [hret]
    exact ⟨fun t => ⟨rs t, hret' t⟩, hQ log cfg rs hrun hret' hpost⟩

end BarrierThreads
