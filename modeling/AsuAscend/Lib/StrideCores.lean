/-
Tasks that cores with a shared state take in strides.

Core `c` of `T` runs the tasks `c`, `c + T`, `c + 2 T`, … below `n`, one after the
other, with a memory of its own that lasts from task to task. A schedule says which
core moves next, so that the cores interleave in any way. When a task that has not
been run yet can always be run (`Serves`), every schedule goes through, and the
cores have run each task once when they are finished (`run_spec`), as a single loop
over the tasks has (`loop_spec`).

## One memory per core

What a core keeps between its tasks, such as a buffer that it does not clear, is part of the
machine; `Good` is what its tasks may rely on there, and each leaves it so. `After done` describes
the shared states in which the tasks of the set `done` have been run, in whatever order: from each
of them any other task has to be possible, and to lead to the states of one task more. Since the
set does not tell the order, neither does the final state.
-/
import AsuAscend.Lib.Folds
import Mathlib.Data.Finset.Filter
import Mathlib.Data.Finset.Insert
import Mathlib.Data.Finset.Range

set_option autoImplicit false

namespace StrideCores

variable {ε S L : Type}

structure Core (L : Type) where
  next : ℕ
  mem : L

structure Machine (S L : Type) where
  shared : S
  cores : ℕ → Core L

def start (shared : S) (mem : ℕ → L) : Machine S L := ⟨shared, fun c => ⟨c, mem c⟩⟩

/-- The machine after a turn of core `c`. -/
def Machine.moved (s : Machine S L) (shared : S) (c : ℕ) (core : Core L) : Machine S L where
  shared := shared
  cores := fun c' => if c' = c then core else s.cores c'

theorem moved_self (s : Machine S L) (shared : S) (c : ℕ) (core : Core L) :
    (s.moved shared c core).cores c = core := if_pos rfl

theorem moved_of_ne (s : Machine S L) (shared : S) {c c' : ℕ} (h : c' ≠ c) (core : Core L) :
    (s.moved shared c core).cores c' = s.cores c' := if_neg h

/-- One turn of the loop of core `c`. -/
def turn (task : L × S → ℕ → Except ε (L × S)) (n T : ℕ) (s : Machine S L) (c : ℕ) :
    Except ε (Machine S L) :=
  if (s.cores c).next < n then do
    let (mem, shared) ← task ((s.cores c).mem, s.shared) (s.cores c).next
    return s.moved shared c ⟨(s.cores c).next + T, mem⟩
  else return s

def run (task : L × S → ℕ → Except ε (L × S)) (n T : ℕ) (s : Machine S L) (schedule : List ℕ) :
    Except ε (Machine S L) := schedule.foldlM (turn task n T) s

def Finished (n T : ℕ) (s : Machine S L) : Prop := ∀ c < T, n ≤ (s.cores c).next

/-- The shared states that a set of tasks leads to, and how the next task gets on. -/
structure Serves (task : L × S → ℕ → Except ε (L × S)) (n : ℕ) (Good : L → Prop)
    (After : Finset ℕ → S → Prop) : Prop where
  step : ∀ done shared mem r, r < n → r ∉ done → After done shared → Good mem →
    ∃ mem' shared', task (mem, shared) r = .ok (mem', shared') ∧ Good mem' ∧
      After (insert r done) shared'

variable {task : L × S → ℕ → Except ε (L × S)} {n T : ℕ} {Good : L → Prop}
  {After : Finset ℕ → S → Prop}

/-! ## A single loop -/

/-- **One core** goes through all rows in order. -/
theorem loop_spec (h : Serves task n Good After) {shared : S} (mem : L) (hmem : Good mem)
    (h0 : After ∅ shared) : ∃ mem' shared', (List.range n).foldlM task (mem, shared) =
      .ok (mem', shared') ∧ Good mem' ∧ After (Finset.range n) shared' := by
  have key : ∀ k ≤ n, ∃ mem' shared', (List.range k).foldlM task (mem, shared) =
      .ok (mem', shared') ∧ Good mem' ∧ After (Finset.range k) shared' := by
    intro k
    induction k with
    | zero => exact fun _ => ⟨mem, shared, rfl, hmem, h0⟩
    | succ k ih =>
        intro hk
        obtain ⟨mem', shared', hrun, hgood, hafter⟩ := ih (Nat.le_of_succ_le hk)
        obtain ⟨mem'', shared'', hstep, hgood', hafter'⟩ :=
          h.step _ shared' mem' k hk Finset.notMem_range_self hafter hgood
        refine ⟨mem'', shared'', ?_, hgood', ?_⟩
        · rw [List.range_succ, List.foldlM_append, hrun]
          simp only [bind, Except.bind, List.foldlM_cons, List.foldlM_nil, hstep, pure, Except.pure]
        · rw [Finset.range_add_one]
          exact hafter'
  exact key n le_rfl

/-! ## Many cores -/

/-- The tasks that the cores have run. -/
def done (n T : ℕ) (s : Machine S L) : Finset ℕ :=
  (Finset.range n).filter fun r => r < (s.cores (r % T)).next

/-- After the turns `pre`: each core is at a task of its own, and has not idled. -/
structure Inv (n T : ℕ) (Good : L → Prop) (After : Finset ℕ → S → Prop) (pre : List ℕ)
    (s : Machine S L) : Prop where
  own : ∀ c < T, (s.cores c).next % T = c
  good : ∀ c < T, Good (s.cores c).mem
  after : After (done n T s) s.shared
  progress : ∀ c < T, min n (pre.count c) ≤ (s.cores c).next

/-- A row is done when its core has gone past it. -/
theorem mem_done {s : Machine S L} {r : ℕ} :
    r ∈ done n T s ↔ r < n ∧ r < (s.cores (r % T)).next := by
  unfold done
  rw [Finset.mem_filter, Finset.mem_range]

/-- The next task of a core is the first of its own after those it has run. -/
theorem done_turn {s : Machine S L} {c : ℕ} {mem : L} {shared : S} (hT : 0 < T)
    (hc : (s.cores c).next % T = c) (hlt : (s.cores c).next < n) :
    done n T (s.moved shared c ⟨(s.cores c).next + T, mem⟩) =
      insert (s.cores c).next (done n T s) := by
  ext r
  rw [Finset.mem_insert, mem_done, mem_done]
  -- a task of the core that has moved, and one of another core
  by_cases hr : r % T = c
  · rw [hr, moved_self]
    dsimp only
    have hrdiv := Nat.div_add_mod r T
    have hndiv := Nat.div_add_mod (s.cores c).next T
    constructor
    · rintro ⟨hrn, hbelow⟩
      by_cases hlow : r < (s.cores c).next
      · exact Or.inr ⟨hrn, hlow⟩
      · -- two tasks of one core are a stride apart
        left
        have hquot : r / T = (s.cores c).next / T := by
          apply Nat.le_antisymm
          · apply Nat.le_of_lt_succ
            apply Nat.lt_of_mul_lt_mul_left (a := T)
            rw [Nat.mul_succ]
            omega
          · exact Nat.div_le_div_right (Nat.not_lt.mp hlow)
        rw [← hrdiv, ← hndiv, hquot, hr, hc]
    · rintro (heq | ⟨hrn, hlow⟩)
      · exact ⟨heq ▸ hlt, by omega⟩
      · exact ⟨hrn, by omega⟩
  · rw [moved_of_ne s shared hr]
    constructor
    · exact Or.inr
    · rintro (heq | hold)
      · rw [heq] at hr
        exact absurd hc hr
      · exact hold

/-- One turn of a core, with the rows done so far. -/
theorem turn_spec (h : Serves task n Good After) (hT : 0 < T) {pre : List ℕ} {s : Machine S L}
    (hs : Inv n T Good After pre s) {c : ℕ} (hc : c < T) :
    ∃ s', turn task n T s c = .ok s' ∧ Inv n T Good After (pre ++ [c]) s' := by
  have hcount : ∀ c', (pre ++ [c]).count c' = pre.count c' + if c' = c then 1 else 0 := by
    intro c'
    rw [List.count_append, List.count_singleton]
    by_cases heq : c' = c
    · rw [if_pos heq, if_pos (beq_iff_eq.mpr heq.symm)]
    · rw [if_neg heq, if_neg fun hbeq => heq (beq_iff_eq.mp hbeq).symm]
  unfold turn
  -- a core that has run all of its tasks does nothing
  split_ifs with hlt
  · have hown := hs.own c hc
    have hnot : (s.cores c).next ∉ done n T s := by
      rw [mem_done, hown]
      exact fun hmem => Nat.lt_irrefl _ hmem.2
    obtain ⟨mem', shared', htask, hgood, hafter⟩ :=
      h.step _ _ _ _ hlt hnot hs.after (hs.good c hc)
    rw [htask]
    refine ⟨_, rfl, fun c' hc' => ?_, fun c' hc' => ?_, ?_, fun c' hc' => ?_⟩
    · by_cases heq : c' = c
      · rw [heq, moved_self, Nat.add_mod_right, hown]
      · rw [moved_of_ne s shared' heq]
        exact hs.own c' hc'
    · by_cases heq : c' = c
      · rw [heq, moved_self]
        exact hgood
      · rw [moved_of_ne s shared' heq]
        exact hs.good c' hc'
    · rw [done_turn hT hown hlt]
      exact hafter
    · have hp := hs.progress c' hc'
      rw [hcount]
      by_cases heq : c' = c
      · rw [heq] at hp
        rw [heq, moved_self, if_pos rfl]
        dsimp only
        omega
      · rw [moved_of_ne s shared' heq, if_neg heq, Nat.add_zero]
        exact hp
  · refine ⟨s, rfl, hs.own, hs.good, hs.after, fun c' hc' => ?_⟩
    have hp := hs.progress c' hc'
    rw [hcount]
    split_ifs with heq
    · rw [heq]
      omega
    · exact hp

/-- Every interleaving of the cores goes through, and runs each task once. -/
theorem run_spec (h : Serves task n Good After) (hT : 0 < T) {shared : S} {mem : ℕ → L}
    (hmem : ∀ c < T, Good (mem c)) (h0 : After ∅ shared) {schedule : List ℕ}
    (hsched : ∀ c ∈ schedule, c < T) :
    ∃ s, run task n T (start shared mem) schedule = .ok s ∧
      (Finished n T s → After (Finset.range n) s.shared) ∧
      ((∀ c < T, n ≤ schedule.count c) → Finished n T s) := by
  -- at the start no core has gone past any task
  have hstart : Inv n T Good After [] (start shared mem) := by
    refine ⟨fun c hc => Nat.mod_eq_of_lt hc, hmem, ?_, fun c _ => by simp⟩
    have hempty : done n T (start shared mem) = ∅ := by
      ext r
      rw [mem_done]
      show r < n ∧ r < r % T ↔ r ∈ (∅ : Finset ℕ)
      have hle := Nat.mod_le r T
      constructor
      · intro hr
        omega
      · exact fun hr => absurd hr (Finset.notMem_empty r)
    rw [hempty]
    exact h0
  -- turn by turn, whichever core moves
  obtain ⟨s, hrun, hs⟩ := Folds.foldlM_prefix (f := turn task n T) (Inv n T Good After) schedule
    hstart (by
      intro pre c suf s hsplit hs
      apply turn_spec h hT hs
      apply hsched
      rw [hsplit]
      exact List.mem_append_right pre List.mem_cons_self)
  refine ⟨s, hrun, fun hfinished => ?_, fun henough c hc => ?_⟩
  -- when all cores are finished every task is done
  · have hall : done n T s = Finset.range n := by
      ext r
      rw [mem_done, Finset.mem_range]
      refine ⟨And.left, fun hr => ⟨hr, ?_⟩⟩
      exact lt_of_lt_of_le hr (hfinished _ (Nat.mod_lt r hT))
    rw [← hall]
    exact hs.after
  -- a core that has had a turn for each of its tasks is finished
  · have hp := hs.progress c hc
    have := henough c hc
    omega

/-! ## Tasks that follow others -/

/-- Where a turn goes through, so does the turn of a task that follows the first. -/
theorem turn_related {S' : Type} {task' : L × S' → ℕ → Except ε (L × S')} {R : S → S' → Prop}
    (hstep : ∀ mem shared shared' r mem' t, R shared shared' → task (mem, shared) r = .ok (mem', t) →
      ∃ t', task' (mem, shared') r = .ok (mem', t') ∧ R t t')
    {s s1 : Machine S L} {s' : Machine S' L} (hs : s'.cores = s.cores ∧ R s.shared s'.shared) {c : ℕ}
    (h : turn task n T s c = .ok s1) :
    ∃ s1', turn task' n T s' c = .ok s1' ∧ s1'.cores = s1.cores ∧ R s1.shared s1'.shared := by
  obtain ⟨hcores, hshared⟩ := hs
  unfold turn at h ⊢
  rw [hcores]
  split_ifs at h ⊢ with hlt
  · obtain ⟨⟨mem', t⟩, htask, h⟩ := Folds.ok_of_bind h
    cases h
    obtain ⟨t', htask', ht⟩ := hstep _ _ _ _ _ _ hshared htask
    rw [htask']
    refine ⟨_, rfl, ?_, ht⟩
    unfold Machine.moved
    rw [hcores]
  · cases h
    exact ⟨s', rfl, hcores, hshared⟩

/-- **Following a run.** The cores come to where they came to, and the shared states to states
that are related. -/
theorem run_related {S' : Type} {task' : L × S' → ℕ → Except ε (L × S')} {R : S → S' → Prop}
    (hstep : ∀ mem shared shared' r mem' t, R shared shared' → task (mem, shared) r = .ok (mem', t) →
      ∃ t', task' (mem, shared') r = .ok (mem', t') ∧ R t t')
    {s s1 : Machine S L} {s' : Machine S' L} (hs : s'.cores = s.cores ∧ R s.shared s'.shared)
    {schedule : List ℕ} (h : run task n T s schedule = .ok s1) :
    ∃ s1', run task' n T s' schedule = .ok s1' ∧ s1'.cores = s1.cores ∧ R s1.shared s1'.shared := by
  have hturn : ∀ (s : Machine S L) (s' : Machine S' L) (c : ℕ) (s1 : Machine S L),
      s'.cores = s.cores ∧ R s.shared s'.shared → turn task n T s c = .ok s1 →
      ∃ s1', turn task' n T s' c = .ok s1' ∧ s1'.cores = s1.cores ∧ R s1.shared s1'.shared :=
    fun s s' c s1 hs hturn => turn_related hstep hs hturn
  exact Folds.foldlM_related hturn hs h

end StrideCores
