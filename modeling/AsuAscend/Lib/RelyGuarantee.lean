/-
Rely-guarantee reasoning for barrier-synchronised threads.

Between two barriers a `Contract` fixes what every access keeps (`inv`) and what
each thread may assume of the others (`rely`); the guarantee of a thread is that
each of its accesses is an allowed one for everybody else. `Safe` is the weakest
precondition of one thread's program under that contract, and `Running` puts the
threads side by side: it is kept by every access of every thread, which is the
whole content of the parallel rule. Ghost state of type `G` records facts that
the memory does not show, such as which thread won a race.

`Correct` strings phases together, one contract each. It is an invariant of the
steps (`Correct.step`), and where no step is left the postcondition holds
(`Correct.final`); with `step_wf` every schedule ends there.

## Using it

A contract is given once per phase, and what a thread assumes of the others has to be reflexive and
transitive. For a thread one proves `Safe`, an access at a time: the invariant gives the possible
values of a load, and a store has to be a `Move`, which keeps the invariant and everybody else's
assumptions. `Triple` is the form in which this is stated for parts of a program, with rules for
sequences and loops. The phases are put together backwards, each by what it leaves to the next.
-/
import AsuAscend.Lib.BarrierThreads

set_option autoImplicit false

open Function (update)

namespace BarrierThreads

open Prog

variable {τ A V R S G : Type} [DecidableEq τ] [DecidableEq A]

/-! ## Contracts -/

/-- The invariant of a phase and what each thread assumes of the others. -/
structure Contract (τ G A V : Type) where
  inv : G → Mem A V → Prop
  rely : τ → G × Mem A V → G × Mem A V → Prop
  refl : ∀ t s, rely t s s
  trans : ∀ t s s' s'', rely t s s' → rely t s' s'' → rely t s s''

namespace Contract

variable (C : Contract τ G A V) (dom : A → Prop)

/-- `Φ` now and after anything the other threads may do. -/
def Always (t : τ) (Φ : G → Mem A V → Prop) (g : G) (m : Mem A V) : Prop :=
  ∀ g' m', C.rely t (g, m) (g', m') → C.inv g' m' → Φ g' m'

/-- An access of thread `t` that the contract allows. -/
def Move (t : τ) (g : G) (m : Mem A V) (g' : G) (m' : Mem A V) : Prop :=
  C.inv g' m' ∧ ∀ u, u ≠ t → C.rely u (g, m) (g', m')

/-- Thread `t` runs its program without fault, keeps the contract and comes to a
barrier or to its end with `E`. -/
def Safe (t : τ) (E : Prog A V R → G → Mem A V → Prop) : Prog A V R → G → Mem A V → Prop
  | .ret r => C.Always t (E (.ret r))
  | .sync k => C.Always t (E (.sync k))
  | .load a k => C.Always t fun g m => dom a ∧ ∃ v, m a = some v ∧ Safe t E (k v) g m
  | .store a v k => C.Always t fun g m => dom a ∧ ∃ g',
      C.Move t g m g' (update m a (some v)) ∧ Safe t E k g' (update m a (some v))
  | .cas a e d k => C.Always t fun g m => dom a ∧ ∃ v, m a = some v ∧
      (v = e → ∃ g', C.Move t g m g' (update m a (some d)) ∧
        Safe t E (k v) g' (update m a (some d))) ∧
      (v ≠ e → Safe t E (k v) g m)

/-- All threads side by side. -/
def Running (E : τ → Prog A V R → G → Mem A V → Prop) (progs : τ → Prog A V R) (m : Mem A V) :
    Prop :=
  ∃ g, C.inv g m ∧ ∀ t, C.Safe dom t (E t) (progs t) g m

variable {C dom}

omit [DecidableEq τ] [DecidableEq A] in
/-- What always holds holds after steps of the others. -/
theorem Always.env {t : τ} {Φ : G → Mem A V → Prop} {g g' : G} {m m' : Mem A V}
    (h : C.Always t Φ g m) (hr : C.rely t (g, m) (g', m')) : C.Always t Φ g' m' :=
  fun g'' m'' hr' hi => h g'' m'' (C.trans t _ _ _ hr hr') hi

omit [DecidableEq τ] [DecidableEq A] in
theorem Always.now {t : τ} {Φ : G → Mem A V → Prop} {g : G} {m : Mem A V}
    (h : C.Always t Φ g m) (hi : C.inv g m) : Φ g m := h g m (C.refl t _) hi

omit [DecidableEq τ] in
/-- What the others do does not hurt. -/
theorem Safe.env {t : τ} {E : Prog A V R → G → Mem A V → Prop} {p : Prog A V R} {g g' : G}
    {m m' : Mem A V} (h : C.Safe dom t E p g m) (hr : C.rely t (g, m) (g', m')) :
    C.Safe dom t E p g' m' := by
  cases p <;> exact Always.env h hr

omit [DecidableEq τ] in
theorem Safe.mono {t : τ} {E E' : Prog A V R → G → Mem A V → Prop} {p : Prog A V R} {g : G}
    {m : Mem A V} (h : C.Safe dom t E p g m) (hE : ∀ e g m, C.inv g m → E e g m → E' e g m) :
    C.Safe dom t E' p g m := by
  induction p generalizing g m with
  | ret r => exact fun g' m' hr hi => hE _ g' m' hi (h g' m' hr hi)
  | sync k _ => exact fun g' m' hr hi => hE _ g' m' hi (h g' m' hr hi)
  | load a k ih =>
      intro g' m' hr hi
      obtain ⟨hd, v, hv, hk⟩ := h g' m' hr hi
      exact ⟨hd, v, hv, ih v hk⟩
  | store a v k ih =>
      intro g' m' hr hi
      obtain ⟨hd, g'', hmove, hk⟩ := h g' m' hr hi
      exact ⟨hd, g'', hmove, ih hk⟩
  | cas a e d k ih =>
      intro g' m' hr hi
      obtain ⟨hd, v, hv, hok, hfail⟩ := h g' m' hr hi
      refine ⟨hd, v, hv, fun hve => ?_, fun hve => ih v (hfail hve)⟩
      obtain ⟨g'', hmove, hk⟩ := hok hve
      exact ⟨g'', hmove, ih v hk⟩

/-- The others, after an allowed access of thread `t`. -/
theorem safe_others {t : τ} {E : τ → Prog A V R → G → Mem A V → Prop} {progs : τ → Prog A V R}
    {g g' : G} {m m' : Mem A V} {p : Prog A V R} (h : ∀ u, C.Safe dom u (E u) (progs u) g m)
    (hmove : C.Move t g m g' m') (ht : C.Safe dom t (E t) p g' m') :
    ∀ u, C.Safe dom u (E u) (update progs t p u) g' m' := by
  intro u
  by_cases hu : u = t
  · subst hu; rw [Function.update_self]; exact ht
  · rw [Function.update_of_ne hu]
    exact (h u).env (hmove.2 u hu)

/-- **The parallel rule.** Any step short of a barrier keeps `Running`. -/
theorem Running.step {E : τ → Prog A V R → G → Mem A V → Prop} {progs : τ → Prog A V R}
    {m : Mem A V} {c : Config τ A V R} (h : C.Running dom E progs m) (hs : Step dom (progs, m) c) :
    C.Running dom E c.1 c.2 ∨ ∃ ks, (∀ t, progs t = .sync (ks t)) ∧ c = (ks, m) := by
  obtain ⟨g, hi, hsafe⟩ := h
  -- an access that writes nothing is allowed to all
  have stay : ∀ t, C.Move t g m g m := fun t => ⟨hi, fun u _ => C.refl u _⟩
  cases hs with
  | @load _ _ t a k v ht hd hv =>
      have hst := hsafe t
      rw [ht] at hst
      obtain ⟨-, w, hw, hk⟩ := Always.now hst hi
      obtain rfl := Option.some.inj (hv.symm.trans hw)
      -- one case for each access: the thread's own proof goes on, the others' stay
      exact Or.inl ⟨g, hi, safe_others hsafe (stay t) hk⟩
  | @store _ _ t a v k ht hd =>
      have hst := hsafe t
      rw [ht] at hst
      obtain ⟨-, g', hmove, hk⟩ := Always.now hst hi
      exact Or.inl ⟨g', hmove.1, safe_others hsafe hmove hk⟩
  | @casOk _ _ t a e d k ht hd hv =>
      have hst := hsafe t
      rw [ht] at hst
      obtain ⟨-, w, hw, hok, -⟩ := Always.now hst hi
      obtain rfl := Option.some.inj (hv.symm.trans hw)
      obtain ⟨g', hmove, hk⟩ := hok rfl
      exact Or.inl ⟨g', hmove.1, safe_others hsafe hmove hk⟩
  | @casFail _ _ t a e d v k ht hd hv hne =>
      have hst := hsafe t
      rw [ht] at hst
      obtain ⟨-, w, hw, -, hfail⟩ := Always.now hst hi
      obtain rfl := Option.some.inj (hv.symm.trans hw)
      exact Or.inl ⟨g, hi, safe_others hsafe (stay t) (hfail hne)⟩
  -- a barrier is reached by all threads at once
  | @barrier _ ks _ hall => exact Or.inr ⟨ks, hall, rfl⟩

/-- **No fault.** A thread that is not at the end of its phase can take a step. -/
theorem Running.progress {E : τ → Prog A V R → G → Mem A V → Prop} {progs : τ → Prog A V R}
    {m : Mem A V} (h : C.Running dom E progs m) {t : τ} (ht : ¬ (progs t).AtEnd) :
    ∃ c, Step dom (progs, m) c := by
  obtain ⟨g, hi, hsafe⟩ := h
  have hst := hsafe t
  cases hp : progs t with
  | ret r => rw [hp] at ht; exact absurd trivial ht
  | sync k => rw [hp] at ht; exact absurd trivial ht
  | load a k =>
      rw [hp] at hst
      obtain ⟨hd, v, hv, -⟩ := Always.now hst hi
      exact ⟨_, .load hp hd hv⟩
  | store a v k =>
      rw [hp] at hst
      exact ⟨_, .store hp (Always.now hst hi).1⟩
  | cas a e d k =>
      rw [hp] at hst
      obtain ⟨hd, v, hv, -⟩ := Always.now hst hi
      by_cases hve : v = e
      · subst hve; exact ⟨_, .casOk hp hd hv⟩
      · exact ⟨_, .casFail hp hd hv hve⟩

/-- Where no step is left, every thread is at the end of its phase: it has met `E`. -/
theorem Running.stuck {E : τ → Prog A V R → G → Mem A V → Prop} {progs : τ → Prog A V R}
    {m : Mem A V} (h : C.Running dom E progs m) (hst : Stuck dom (progs, m)) :
    ∃ g, C.inv g m ∧ ∀ t, E t (progs t) g m := by
  have hend : ∀ t, (progs t).AtEnd := by
    intro t
    by_contra hne
    obtain ⟨c, hc⟩ := h.progress hne
    exact hst c hc
  obtain ⟨g, hi, hsafe⟩ := h
  refine ⟨g, hi, fun t => ?_⟩
  have hat := hend t
  have hnow := hsafe t
  cases hp : progs t with
  | ret r =>
      rw [hp] at hnow
      exact Always.now hnow hi
  | sync k =>
      rw [hp] at hnow
      exact Always.now hnow hi
  | load a k => rw [hp] at hat; exact absurd hat id
  | store a v k => rw [hp] at hat; exact absurd hat id
  | cas a e d k => rw [hp] at hat; exact absurd hat id

end Contract

open Contract

/-! ## Phases in sequence -/

/-- Every phase from here on keeps some contract, and the last one ends in `Post`. -/
inductive Correct (dom : A → Prop) (Post : (τ → R) → Mem A V → Prop) :
    (τ → Prog A V R) → Mem A V → Prop
  | last {G : Type} (C : Contract τ G A V) (E : τ → R → G → Mem A V → Prop)
      {progs : τ → Prog A V R} {m : Mem A V}
      (hrun : C.Running dom (fun t e g m => ∃ r, e = .ret r ∧ E t r g m) progs m)
      (hpost : ∀ rs g m', C.inv g m' → (∀ t, E t (rs t) g m') → Post rs m') :
      Correct dom Post progs m
  | next {G : Type} (C : Contract τ G A V) (E : τ → Prog A V R → G → Mem A V → Prop)
      {progs : τ → Prog A V R} {m : Mem A V}
      (hrun : C.Running dom (fun t e g m => ∃ k, e = .sync k ∧ E t k g m) progs m)
      (hnext : ∀ ks g m', C.inv g m' → (∀ t, E t (ks t) g m') → Correct dom Post ks m') :
      Correct dom Post progs m

section Outcome

variable {dom : A → Prop} {Post : (τ → R) → Mem A V → Prop}

omit [DecidableEq τ] in
theorem Correct.mono {Post' : (τ → R) → Mem A V → Prop} {progs : τ → Prog A V R} {m : Mem A V}
    (h : Correct dom Post progs m) (hP : ∀ rs m, Post rs m → Post' rs m) :
    Correct dom Post' progs m := by
  induction h with
  | last C E hrun hpost => exact .last C E hrun fun rs g m hi hE => hP rs m (hpost rs g m hi hE)
  | next C E hrun _ ih => exact .next C E hrun ih

/-- Correctness is an invariant of the interleaving. -/
theorem Correct.step [Nonempty τ] {c c' : Config τ A V R} (h : Correct dom Post c.1 c.2)
    (hs : Step dom c c') : Correct dom Post c'.1 c'.2 := by
  obtain ⟨progs, m⟩ := c
  cases h with
  | last C E hrun hpost =>
      rcases hrun.step hs with hrun' | ⟨ks, hall, rfl⟩
      · exact .last C E hrun' hpost
      · -- a thread at a barrier is not at its end
        obtain ⟨g, hi, hsafe⟩ := hrun
        have hst := hsafe (Classical.arbitrary τ)
        dsimp only at hst hall
        rw [hall] at hst
        obtain ⟨r, hr, -⟩ := Always.now hst hi
        cases hr
  | next C E hrun hnext =>
      rcases hrun.step hs with hrun' | ⟨ks, hall, rfl⟩
      · exact .next C E hrun' hnext
      · obtain ⟨g, hi, hsafe⟩ := hrun
        -- every thread waits, so each has met `E` and the next phase begins
        refine hnext ks g m hi fun t => ?_
        have hst := hsafe t
        dsimp only at hst hall
        rw [hall] at hst
        obtain ⟨k, hk, hE⟩ := Always.now hst hi
        rw [Prog.sync.inj hk]
        exact hE

/-- What is correct stays so along a run. -/
theorem Correct.steps [Nonempty τ] {c c' : Config τ A V R} (h : Correct dom Post c.1 c.2)
    (hs : Steps dom c c') : Correct dom Post c'.1 c'.2 := by
  induction hs with
  | refl => exact h
  | tail _ hs ih => exact ih.step hs

/-- Where no step is left, every thread has returned and the postcondition holds. -/
theorem Correct.final {c : Config τ A V R} (h : Correct dom Post c.1 c.2) (hst : Stuck dom c) :
    ∃ rs, c.1 = (fun t => .ret (rs t)) ∧ Post rs c.2 := by
  obtain ⟨progs, m⟩ := c
  cases h with
  | last C E hrun hpost =>
      obtain ⟨g, hi, hret⟩ := hrun.stuck hst
      choose rs hrs hE using hret
      exact ⟨rs, funext hrs, hpost rs g m hi hE⟩
  | next C E hrun hnext =>
      -- all the threads wait, so the barrier opens
      obtain ⟨g, hi, hsync⟩ := hrun.stuck hst
      choose ks hks _ using hsync
      exact absurd (.barrier hks) (hst (ks, m))

/-- **Every schedule ends**, and where it ends the postcondition holds. -/
theorem Correct.outcome [Nonempty τ] {progs : τ → Prog A V R} {m : Mem A V}
    (h : Correct dom Post progs m) {c : Config τ A V R} (hs : Steps dom (progs, m) c)
    (hst : Stuck dom c) : ∃ rs, c.1 = (fun t => .ret (rs t)) ∧ Post rs c.2 :=
  (Correct.steps (c := (progs, m)) h hs).final hst

end Outcome

/-- From any configuration some schedule runs until no step is left. -/
theorem exists_stuck {θ : Type} [LinearOrder θ] [Finite θ] [Nonempty θ] (dom : A → Prop)
    (c : Config θ A V R) : ∃ c', Steps dom c c' ∧ Stuck dom c' := by
  apply (step_wf dom).fix (C := fun c => ∃ c', Steps dom c c' ∧ Stuck dom c')
  -- take a step while there is one
  intro c ih
  by_cases hst : Stuck dom c
  · exact ⟨c, .refl, hst⟩
  · simp only [Stuck, not_forall, not_not] at hst
    obtain ⟨c1, h1⟩ := hst
    obtain ⟨c', h', hst'⟩ := ih c1 h1
    exact ⟨c', .head h1 h', hst'⟩

/-- Some schedule takes a phase to its barrier. -/
theorem Contract.Running.reaches {θ : Type} [LinearOrder θ] [Finite θ] [Nonempty θ]
    {C : Contract θ G A V} {dom : A → Prop} {E : θ → Prog A V R → G → Mem A V → Prop}
    {progs : θ → Prog A V R} {m : Mem A V}
    (h : C.Running dom (fun t e g m => ∃ k, e = .sync k ∧ E t k g m) progs m) :
    ∃ (ks : θ → Prog A V R) (m' : Mem A V) (g : G),
      Steps dom (progs, m) (ks, m') ∧ C.inv g m' ∧ ∀ t, E t (ks t) g m' := by
  suffices key : ∀ c : Config θ A V R,
      C.Running dom (fun t e g m => ∃ k, e = .sync k ∧ E t k g m) c.1 c.2 →
      ∃ (ks : θ → Prog A V R) (m' : Mem A V) (g : G),
        Steps dom c (ks, m') ∧ C.inv g m' ∧ ∀ t, E t (ks t) g m' from key (progs, m) h
  intro c
  apply (step_wf dom).fix (C := fun c : Config θ A V R =>
    C.Running dom (fun t e g m => ∃ k, e = .sync k ∧ E t k g m) c.1 c.2 →
      ∃ (ks : θ → Prog A V R) (m' : Mem A V) (g : G),
        Steps dom c (ks, m') ∧ C.inv g m' ∧ ∀ t, E t (ks t) g m')
  intro c ih hrun
  -- the release of the barrier ends the phase
  have hrelease : ∀ ks : θ → Prog A V R, (∀ t, c.1 t = .sync (ks t)) →
      ∃ (ks : θ → Prog A V R) (m' : Mem A V) (g : G), Steps dom c (ks, m') ∧ C.inv g m' ∧ ∀ t, E t (ks t) g m' := by
    intro ks hks
    obtain ⟨g, hi, hsafe⟩ := hrun
    refine ⟨ks, c.2, g, .single (.barrier hks), hi, fun t => ?_⟩
    have hst := hsafe t
    rw [hks] at hst
    obtain ⟨k, hk, hE⟩ := Always.now hst hi
    rw [Prog.sync.inj hk]
    exact hE
  by_cases hend : ∀ t, (c.1 t).AtEnd
  · have hsync : ∀ t, ∃ k, c.1 t = .sync k := by
      intro t
      obtain ⟨g, hi, hsafe⟩ := hrun
      have h1 := hsafe t
      have h2 := hend t
      rcases hp : c.1 t with r | ⟨a, k⟩ | ⟨a, v, k⟩ | ⟨a, e, d, k⟩ | k
      · rw [hp] at h1
        obtain ⟨k, hk, -⟩ := Always.now h1 hi
        cases hk
      · rw [hp] at h2; exact absurd h2 id
      · rw [hp] at h2; exact absurd h2 id
      · rw [hp] at h2; exact absurd h2 id
      · exact ⟨k, rfl⟩
    choose ks hks using hsync
    exact hrelease ks hks
  · rw [not_forall] at hend
    obtain ⟨t, ht⟩ := hend
    obtain ⟨c', hc'⟩ := hrun.progress ht
    rcases hrun.step hc' with hrun' | ⟨ks, hks, _⟩
    · obtain ⟨ks, m', g, hsteps, h'⟩ := ih c' hc' hrun'
      exact ⟨ks, m', g, .head hc' hsteps, h'⟩
    · exact hrelease ks hks

/-- Thread `t` alone takes `c` to a state in which its program has ended with `E`. -/
def Contract.Alone (C : Contract τ G A V) (dom : A → Prop) (t : τ)
    (E : Prog A V R → G → Mem A V → Prop) (progs : τ → Prog A V R) (g : G) (m : Mem A V) : Prop :=
  ∃ e g' m', Steps dom (progs, m) (update progs t e, m') ∧ C.inv g' m' ∧ E e g' m' ∧
    ∀ u, u ≠ t → C.rely u (g, m) (g', m')

/-- A thread alone makes one step, and goes on alone. -/
theorem Contract.Alone.step {C : Contract τ G A V} {dom : A → Prop} {t : τ}
    {E : Prog A V R → G → Mem A V → Prop} {progs : τ → Prog A V R} {g g' : G} {m m' : Mem A V}
    {q : Prog A V R} (hmove : C.Move t g m g' m')
    (hstep : Step dom (progs, m) (update progs t q, m'))
    (h : C.Alone dom t E (update progs t q) g' m') : C.Alone dom t E progs g m := by
  obtain ⟨e, g'', m'', hsteps, hi, hE, hrely⟩ := h
  rw [Function.update_idem] at hsteps
  exact ⟨e, g'', m'', .head hstep hsteps, hi, hE, fun u hu =>
    C.trans u _ _ _ (hmove.2 u hu) (hrely u hu)⟩

section Rules

variable (C : Contract τ G A V) (dom : A → Prop) (t : τ)

/-- `P` survives what the other threads do. -/
def Stable (P : G → Mem A V → Prop) : Prop :=
  ∀ g m g' m', C.rely t (g, m) (g', m') → C.inv g m → C.inv g' m' → P g m → P g' m'

/-- From `P` the program is safe and ends with `E`. -/
def Triple (P : G → Mem A V → Prop) (p : Prog A V R) (E : Prog A V R → G → Mem A V → Prop) : Prop :=
  ∀ g m, C.inv g m → P g m → C.Safe dom t E p g m

variable {C dom t}

omit [DecidableEq τ] [DecidableEq A] in
theorem Stable.and {P Q : G → Mem A V → Prop} (hP : Stable C t P) (hQ : Stable C t Q) :
    Stable C t fun g m => P g m ∧ Q g m :=
  fun g m g' m' hr hi hi' h => ⟨hP g m g' m' hr hi hi' h.1, hQ g m g' m' hr hi hi' h.2⟩

omit [DecidableEq τ] in
theorem triple_weaken {P P' : G → Mem A V → Prop} {p : Prog A V R}
    {E : Prog A V R → G → Mem A V → Prop} (h : Triple C dom t P' p E)
    (hP : ∀ g m, C.inv g m → P g m → P' g m) : Triple C dom t P p E :=
  fun g m hi hp => h g m hi (hP g m hi hp)

omit [DecidableEq τ] in
theorem triple_ret {P : G → Mem A V → Prop} {r : R} {E : Prog A V R → G → Mem A V → Prop}
    (hP : Stable C t P) (hE : ∀ g m, C.inv g m → P g m → E (.ret r) g m) :
    Triple C dom t P (.ret r) E :=
  fun g m hi hp g' m' hr hi' => hE g' m' hi' (hP g m g' m' hr hi hi' hp)

omit [DecidableEq τ] in
theorem triple_sync {P : G → Mem A V → Prop} {k : Prog A V R}
    {E : Prog A V R → G → Mem A V → Prop} (hP : Stable C t P)
    (hE : ∀ g m, C.inv g m → P g m → E (.sync k) g m) : Triple C dom t P (.sync k) E :=
  fun g m hi hp g' m' hr hi' => hE g' m' hi' (hP g m g' m' hr hi hi' hp)

omit [DecidableEq τ] in
/-- A load: what is read is an instance of what the assertion knows of the cell. -/
theorem triple_read {P : G → Mem A V → Prop} {a : A} {f : V → Prog A V R}
    {E : Prog A V R → G → Mem A V → Prop} (P' : V → G → Mem A V → Prop) (hP : Stable C t P)
    (hload : ∀ g m, C.inv g m → P g m → dom a ∧ ∃ v, m a = some v ∧ P' v g m)
    (hf : ∀ v, Triple C dom t (P' v) (f v) E) : Triple C dom t P (Prog.read a >>= f) E := by
  intro g m hi hp g' m' hr hi'
  obtain ⟨hd, v, hv, hp'⟩ := hload g' m' hi' (hP g m g' m' hr hi hi' hp)
  exact ⟨hd, v, hv, hf v g' m' hi' hp'⟩

omit [DecidableEq τ] in
/-- A store, which the contract has to allow. -/
theorem triple_write {P : G → Mem A V → Prop} {a : A} {v : V} {f : Unit → Prog A V R}
    {E : Prog A V R → G → Mem A V → Prop} (P' : G → Mem A V → Prop) (hP : Stable C t P)
    (hstore : ∀ g m, C.inv g m → P g m → dom a ∧
      ∃ g', C.Move t g m g' (update m a (some v)) ∧ P' g' (update m a (some v)))
    (hf : Triple C dom t P' (f ()) E) : Triple C dom t P (Prog.write a v >>= f) E := by
  intro g m hi hp g' m' hr hi'
  obtain ⟨hd, g'', hmove, hp'⟩ := hstore g' m' hi' (hP g m g' m' hr hi hi' hp)
  exact ⟨hd, g'', hmove, hf g'' _ hmove.1 hp'⟩

omit [DecidableEq τ] in
/-- A compare-and-swap: two cases, of which only the one that finds `e` has to be allowed. -/
theorem triple_cas {P : G → Mem A V → Prop} {a : A} {e d : V} {f : V → Prog A V R}
    {E : Prog A V R → G → Mem A V → Prop} (P' : V → G → Mem A V → Prop) (hP : Stable C t P)
    (hcas : ∀ g m, C.inv g m → P g m → dom a ∧ ∃ v, m a = some v ∧
      (v = e → ∃ g', C.Move t g m g' (update m a (some d)) ∧ P' v g' (update m a (some d))) ∧
      (v ≠ e → P' v g m))
    (hf : ∀ v, Triple C dom t (P' v) (f v) E) :
    Triple C dom t P (Prog.atomicCas a e d >>= f) E := by
  intro g m hi hp g' m' hr hi'
  obtain ⟨hd, v, hv, hok, hfail⟩ := hcas g' m' hi' (hP g m g' m' hr hi hi' hp)
  refine ⟨hd, v, hv, fun hve => ?_, fun hve => hf v g' m' hi' (hfail hve)⟩
  obtain ⟨g'', hmove, hp'⟩ := hok hve
  exact ⟨g'', hmove, hf v g'' _ hmove.1 hp'⟩

omit [DecidableEq τ] in
/-- A part without barriers, then the rest. -/
theorem safe_bind {p : Prog A V R} {f : R → Prog A V S} {E : Prog A V S → G → Mem A V → Prop}
    {g : G} {m : Mem A V} (hi : C.inv g m)
    (h : C.Safe dom t (fun e g m => ∃ r, e = .ret r ∧ C.Safe dom t E (f r) g m) p g m) :
    C.Safe dom t E (p.bind f) g m := by
  induction p generalizing g m with
  | ret r =>
      obtain ⟨r', hr', hs⟩ := Always.now h hi
      rw [Prog.bind_ret, Prog.ret.inj hr']
      exact hs
  | sync k _ =>
      obtain ⟨r', hr', -⟩ := Always.now h hi
      cases hr'
  | load a k ih =>
      intro g' m' hr hi'
      obtain ⟨hd, v, hv, hk⟩ := h g' m' hr hi'
      exact ⟨hd, v, hv, ih v hi' hk⟩
  | store a v k ih =>
      intro g' m' hr hi'
      obtain ⟨hd, g'', hmove, hk⟩ := h g' m' hr hi'
      exact ⟨hd, g'', hmove, ih hmove.1 hk⟩
  | cas a e d k ih =>
      intro g' m' hr hi'
      obtain ⟨hd, v, hv, hok, hfail⟩ := h g' m' hr hi'
      refine ⟨hd, v, hv, fun hve => ?_, fun hve => ih v hi' (hfail hve)⟩
      obtain ⟨g'', hmove, hk⟩ := hok hve
      exact ⟨g'', hmove, ih v hmove.1 hk⟩

omit [DecidableEq τ] in
/-- Two programs in sequence, with an assertion between them. -/
theorem triple_bind {P : G → Mem A V → Prop} {p : Prog A V R} {f : R → Prog A V S}
    {E : Prog A V S → G → Mem A V → Prop} (Mid : R → G → Mem A V → Prop)
    (hp : Triple C dom t P p fun e g m => ∃ r, e = .ret r ∧ Mid r g m)
    (hf : ∀ r, Triple C dom t (Mid r) (f r) E) : Triple C dom t P (p.bind f) E := by
  intro g m hi hP
  apply safe_bind hi
  refine (hp g m hi hP).mono ?_
  rintro e g' m' hi' ⟨r, rfl, hmid⟩
  exact ⟨r, rfl, hf r g' m' hi' hmid⟩

omit [DecidableEq τ] in
/-- A loop: one stable assertion for each prefix of the list. -/
theorem triple_forEach {α : Type} (I : List α → G → Mem A V → Prop) (xs : List α)
    {body : α → Prog A V Unit} (hI : ∀ pre, Stable C t (I pre))
    (hbody : ∀ pre x suf, xs = pre ++ x :: suf → Triple C dom t (I pre) (body x)
      fun e g m => ∃ r, e = .ret r ∧ I (pre ++ [x]) g m) :
    Triple C dom t (I []) (forEach xs body) fun e g m => ∃ r, e = .ret r ∧ I xs g m := by
  have key : ∀ suf pre, xs = pre ++ suf → Triple C dom t (I pre) (forEach suf body)
      fun e g m => ∃ r, e = .ret r ∧ I xs g m := by
    intro suf
    induction suf with
    | nil =>
        intro pre hpre
        rw [List.append_nil] at hpre
        subst hpre
        exact triple_ret (hI _) fun g m _ h => ⟨(), rfl, h⟩
    | cons x suf ih =>
        intro pre hpre
        exact triple_bind (fun _ => I (pre ++ [x])) (hbody pre x suf hpre)
          fun _ => ih (pre ++ [x]) (by rw [hpre]; simp)
  exact key xs [] rfl

end Rules

end BarrierThreads
