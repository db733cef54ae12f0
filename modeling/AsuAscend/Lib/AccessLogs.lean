/-
Runs with a log of their accesses.

`Run` is the interleaving of `BarrierThreads` without any check: every access is
performed, wherever it goes, and appended to a log together with the value it found
or put. What a contract proves of the checked steps therefore has to be carried over:
`Run.checked` says that a correct start never leaves `dom`, and `Run.erased` that the
same log belongs to a start whose cells hold nothing, so that a cell is written
before it is read (`Run.written_before`).

`Obeys` is a discipline on one thread's program, read off the text: the cells keep
their types, and each access is one that the thread's own history allows. It needs no
contract, since no other thread is mentioned (`Run.obeys`).

## Checked and unchecked

`BarrierThreads` has no step for an access that is out of bounds. For statements about what a
program accesses that is the wrong way round: here the access is performed, and the log shows it.
Nothing is known of the memory that a run starts from, which may hold anything, and the two halves
of the argument start from two of them: from the memory as it is, and from one with less in it, on
which the checked rules apply (`Below`).
-/
import AsuAscend.Lib.RelyGuarantee

set_option autoImplicit false

open Function (update)

namespace BarrierThreads

open Prog Contract

variable {τ A V R S : Type}

/-! ## Logs -/

/-- An access with the values it has seen. -/
inductive Access (A V : Type) : Type where
  | load (a : A) (v : V)
  | store (a : A) (v : V)
  | casOk (a : A) (e d : V)
  | casFail (a : A) (v : V)

namespace Access

def cell : Access A V → A
  | load a _ => a
  | store a _ => a
  | casOk a _ _ => a
  | casFail a _ => a

/-- The access changes its cell. -/
def Writes : Access A V → Prop
  | load _ _ => False
  | store _ _ => True
  | casOk _ _ _ => True
  | casFail _ _ => False

end Access

/-- An entry of the log. -/
inductive Event (τ A V : Type) : Type where
  | access (t : τ) (x : Access A V)
  | barrier

/-- The entry is a write to `a`. -/
def Event.WritesTo (a : A) : Event τ A V → Prop
  | .access _ x => x.cell = a ∧ x.Writes
  | .barrier => False

/-- The accesses of the entry go to cells of `dom`. -/
def Event.In (dom : A → Prop) : Event τ A V → Prop
  | .access _ x => dom x.cell
  | .barrier => True

variable [DecidableEq τ] [DecidableEq A]

/-- One step and its entry in the log. Nothing is checked. -/
inductive Does : Event τ A V → Config τ A V R → Config τ A V R → Prop
  | load {progs : τ → Prog A V R} {m : Mem A V} {t : τ} {a : A} {k : V → Prog A V R} {v : V}
      (ht : progs t = .load a k) (hv : m a = some v) :
      Does (.access t (.load a v)) (progs, m) (update progs t (k v), m)
  | store {progs : τ → Prog A V R} {m : Mem A V} {t : τ} {a : A} {v : V} {k : Prog A V R}
      (ht : progs t = .store a v k) :
      Does (.access t (.store a v)) (progs, m) (update progs t k, update m a (some v))
  | casOk {progs : τ → Prog A V R} {m : Mem A V} {t : τ} {a : A} {e d : V} {k : V → Prog A V R}
      (ht : progs t = .cas a e d k) (hv : m a = some e) :
      Does (.access t (.casOk a e d)) (progs, m) (update progs t (k e), update m a (some d))
  | casFail {progs : τ → Prog A V R} {m : Mem A V} {t : τ} {a : A} {e d v : V}
      {k : V → Prog A V R} (ht : progs t = .cas a e d k) (hv : m a = some v) (hne : v ≠ e) :
      Does (.access t (.casFail a v)) (progs, m) (update progs t (k v), m)
  | barrier {progs ks : τ → Prog A V R} {m : Mem A V} (h : ∀ t, progs t = .sync (ks t)) :
      Does .barrier (progs, m) (ks, m)

/-- A run with its log, the latest entry last. -/
inductive Run (c0 : Config τ A V R) : List (Event τ A V) → Config τ A V R → Prop
  | start : Run c0 [] c0
  | tail {log : List (Event τ A V)} {e : Event τ A V} {c c' : Config τ A V R} (h : Run c0 log c)
      (hs : Does e c c') : Run c0 (log ++ [e]) c'

/-- Every prefix of a log is the log of a run. -/
theorem Run.split {c0 c : Config τ A V R} {pre post : List (Event τ A V)}
    (h : Run c0 (pre ++ post) c) : ∃ c1, Run c0 pre c1 ∧ Run c1 post c := by
  generalize hlog : pre ++ post = log at h
  induction h generalizing post with
  | start =>
      obtain ⟨rfl, rfl⟩ := List.append_eq_nil_iff.mp hlog
      exact ⟨c0, .start, .start⟩
  | @tail log e c c' h hs ih =>
      rcases List.eq_nil_or_concat post with rfl | ⟨post, e', rfl⟩
      · rw [List.append_nil] at hlog
        subst hlog
        exact ⟨c', .tail h hs, .start⟩
      · rw [List.concat_eq_append, ← List.append_assoc] at hlog
        obtain ⟨hpre, he⟩ := List.append_inj' hlog rfl
        obtain ⟨c1, h1, h2⟩ := ih hpre
        obtain rfl := List.singleton_inj.mp he
        exact ⟨c1, h1, by rw [List.concat_eq_append]; exact .tail h2 hs⟩

/-- The step behind an entry. -/
theorem Run.at_entry {c0 c : Config τ A V R} {pre post : List (Event τ A V)} {e : Event τ A V}
    (h : Run c0 (pre ++ e :: post) c) :
    ∃ c1 c2, Run c0 pre c1 ∧ Does e c1 c2 ∧ Run c2 post c := by
  rw [← List.singleton_append, ← List.append_assoc] at h
  obtain ⟨c2, h12, h2⟩ := h.split
  generalize hlog : pre ++ [e] = log at h12
  cases h12 with
  | start => exact absurd hlog (by simp)
  | tail h1 hs =>
      obtain ⟨rfl, he⟩ := List.append_inj' hlog rfl
      obtain rfl := List.singleton_inj.mp he
      exact ⟨_, c2, h1, hs, h2⟩

/-! ## Against the checked steps -/

/-- An event in the domain is a step. -/
theorem Does.step {dom : A → Prop} {e : Event τ A V} {c c' : Config τ A V R} (h : Does e c c')
    (he : e.In dom) : Step dom c c' := by
  cases h with
  | load ht hv => exact .load ht he hv
  | store ht => exact .store ht he
  | casOk ht hv => exact .casOk ht he hv
  | casFail ht hv hne => exact .casFail ht he hv hne
  | barrier hall => exact .barrier hall

theorem Step.does {dom : A → Prop} {c c' : Config τ A V R} (h : Step dom c c') :
    ∃ e : Event τ A V, e.In dom ∧ Does e c c' := by
  cases h with
  | load ht hd hv => exact ⟨.access _ (.load _ _), hd, .load ht hv⟩
  | store ht hd => exact ⟨.access _ (.store _ _), hd, .store ht⟩
  | casOk ht hd hv => exact ⟨.access _ (.casOk _ _ _), hd, .casOk ht hv⟩
  | casFail ht hd hv hne => exact ⟨.access _ (.casFail _ _), hd, .casFail ht hv hne⟩
  | barrier hall => exact ⟨.barrier, trivial, .barrier hall⟩

/-- A checked schedule goes on from where a run is. -/
theorem Run.extend {dom : A → Prop} {c0 c c' : Config τ A V R} {log : List (Event τ A V)}
    (h : Run c0 log c) (hs : Steps dom c c') : ∃ log', Run c0 (log ++ log') c' := by
  induction hs with
  | refl => exact ⟨[], by rwa [List.append_nil]⟩
  | tail _ hs ih =>
      obtain ⟨log', h'⟩ := ih
      obtain ⟨e, -, he⟩ := hs.does
      exact ⟨log' ++ [e], by rw [← List.append_assoc]; exact .tail h' he⟩

section Correct

variable {dom : A → Prop} {Post : (τ → R) → Mem A V → Prop}

omit [DecidableEq τ] in
/-- In a correct configuration every thread's next access is to an initialised cell
of `dom`; a store needs only the latter. -/
theorem Correct.next_access {progs : τ → Prog A V R} {m : Mem A V}
    (h : Correct dom Post progs m) {t : τ} {p : Prog A V R} (hp : progs t = p) :
    match p with
    | .load a _ => dom a ∧ ∃ v, m a = some v
    | .store a _ _ => dom a
    | .cas a _ _ _ => dom a ∧ ∃ v, m a = some v
    | _ => True := by
  have hsafe : ∀ {G : Type} {C : Contract τ G A V} {E : τ → Prog A V R → G → Mem A V → Prop},
      C.Running dom E progs m →
      match p with
      | .load a _ => dom a ∧ ∃ v, m a = some v
      | .store a _ _ => dom a
      | .cas a _ _ _ => dom a ∧ ∃ v, m a = some v
      | _ => True := by
    rintro G C E ⟨g, hi, hs⟩
    have ht := hs t
    rw [hp] at ht
    cases p with
    | ret r => trivial
    | sync k => trivial
    | load a k =>
        obtain ⟨hd, v, hv, -⟩ := Always.now ht hi
        exact ⟨hd, v, hv⟩
    | store a v k => exact (Always.now ht hi).1
    | cas a e d k =>
        obtain ⟨hd, v, hv, -⟩ := Always.now ht hi
        exact ⟨hd, v, hv⟩
  cases h with
  | last C E hrun _ => exact hsafe hrun
  | next C E hrun _ => exact hsafe hrun

/-- The access of a correct configuration, made in a memory that may hold more. -/
theorem Does.in_dom {e : Event τ A V} {c c' : Config τ A V R} {m : Mem A V} (hs : Does e c c')
    (h : Correct dom Post c.1 m) : e.In dom := by
  cases hs with
  | load ht hv => exact (h.next_access ht).1
  | store ht => exact h.next_access ht
  | casOk ht hv => exact (h.next_access ht).1
  | casFail ht hv hne => exact (h.next_access ht).1
  | barrier hall => exact trivial

/-- **No access leaves `dom`**, although none is checked. -/
theorem Run.checked [Nonempty τ] {c0 c : Config τ A V R} {log : List (Event τ A V)}
    (hrun : Run c0 log c) (h0 : Correct dom Post c0.1 c0.2) :
    Correct dom Post c.1 c.2 ∧ ∀ e ∈ log, e.In dom := by
  induction hrun with
  | start => exact ⟨h0, fun e he => absurd he List.not_mem_nil⟩
  | @tail log e c c' _ hs ih =>
      have he := hs.in_dom ih.1
      refine ⟨ih.1.step (hs.step he), fun e' he' => ?_⟩
      rcases List.mem_append.mp he' with he' | he'
      · exact ih.2 e' he'
      · rw [List.mem_singleton.mp he']; exact he

end Correct

/-! ## Written before it is read -/

/-- What `m'` holds, `m` holds. -/
def Below (m' m : Mem A V) : Prop := ∀ a v, m' a = some v → m a = some v

omit [DecidableEq τ] in
/-- A store keeps one memory below the other. -/
theorem Below.update {m m' : Mem A V} (h : Below m' m) (a : A) (v : V) :
    Below (update m' a (some v)) (update m a (some v)) := by
  intro b w hb
  by_cases hba : b = a
  · subst hba
    rwa [Function.update_self] at hb ⊢
  · rw [Function.update_of_ne hba] at hb ⊢
    exact h b w hb

section Erased

variable {dom : A → Prop} {Post : (τ → R) → Mem A V → Prop}

/-- Where the memory that holds less is correct, it takes the same step. -/
theorem Does.below {e : Event τ A V} {c c' : Config τ A V R} {m : Mem A V} (hs : Does e c c')
    (h : Correct dom Post c.1 m) (hle : Below m c.2) :
    ∃ m', Does e (c.1, m) (c'.1, m') ∧ Below m' c'.2 := by
  -- what the larger memory has at an initialised cell is what the smaller one has
  have hfound : ∀ {m1 : Mem A V} {a : A} {v : V}, Below m m1 → (∃ w, m a = some w) →
      m1 a = some v → m a = some v := by
    rintro m1 a v hle ⟨w, hw⟩ hv
    obtain rfl := Option.some.inj ((hle a w hw).symm.trans hv)
    exact hw
  cases hs with
  | load ht hv => exact ⟨m, .load ht (hfound hle (h.next_access ht).2 hv), hle⟩
  | store ht => exact ⟨_, .store ht, hle.update _ _⟩
  | casOk ht hv => exact ⟨_, .casOk ht (hfound hle (h.next_access ht).2 hv), hle.update _ _⟩
  | casFail ht hv hne => exact ⟨m, .casFail ht (hfound hle (h.next_access ht).2 hv) hne, hle⟩
  | barrier hall => exact ⟨m, .barrier hall, hle⟩

/-- **Erasure.** A start that is correct with fewer initialised cells has the same
logs. -/
theorem Run.erased [Nonempty τ] {c0 c : Config τ A V R} {m0 : Mem A V}
    {log : List (Event τ A V)} (hrun : Run c0 log c) (h0 : Correct dom Post c0.1 m0)
    (hle : Below m0 c0.2) :
    ∃ m, Run (c0.1, m0) log (c.1, m) ∧ Correct dom Post c.1 m ∧ Below m c.2 := by
  induction hrun with
  | start => exact ⟨m0, .start, h0, hle⟩
  | tail _ hs ih =>
      obtain ⟨m, hrun, hcor, hle⟩ := ih
      obtain ⟨m', hs', hle'⟩ := hs.below hcor hle
      exact ⟨m', .tail hrun hs', hcor.step (hs'.step (hs.in_dom hcor)), hle'⟩

end Erased

/-- A step changes a cell only by an entry that writes to it. -/
theorem Does.unchanged {e : Event τ A V} {c c' : Config τ A V R} {a : A} (hs : Does e c c')
    (he : ¬ e.WritesTo a) : c'.2 a = c.2 a := by
  cases hs with
  | load ht hv => rfl
  | store ht => exact Function.update_of_ne (fun h => he ⟨h.symm, trivial⟩) _ _
  | casOk ht hv => exact Function.update_of_ne (fun h => he ⟨h.symm, trivial⟩) _ _
  | casFail ht hv hne => rfl
  | barrier hall => rfl

/-- A cell that no event of the run writes is as it was. -/
theorem Run.unchanged {c0 c : Config τ A V R} {log : List (Event τ A V)} {a : A}
    (hrun : Run c0 log c) (hlog : ∀ e ∈ log, ¬ e.WritesTo a) : c.2 a = c0.2 a := by
  induction hrun with
  | start => rfl
  | tail _ hs ih =>
      rw [hs.unchanged (hlog _ (by simp))]
      exact ih fun e he => hlog e (List.mem_append_left _ he)

/-- **Written before it is read.** A start that is correct without the contents of a
cell writes the cell before it loads it. -/
theorem Run.written_before [Nonempty τ] {dom : A → Prop} {Post : (τ → R) → Mem A V → Prop}
    {c0 c : Config τ A V R} {m0 : Mem A V} {pre post : List (Event τ A V)} {t : τ} {a : A} {v : V}
    (hrun : Run c0 (pre ++ .access t (.load a v) :: post) c) (h0 : Correct dom Post c0.1 m0)
    (hle : Below m0 c0.2) (ha : m0 a = none) : ∃ e ∈ pre, e.WritesTo a := by
  by_contra hno
  obtain ⟨m, hrun', -, -⟩ := hrun.erased h0 hle
  obtain ⟨c1, c2, h1, hs, -⟩ := hrun'.at_entry
  have hkeep := h1.unchanged (a := a) fun e he hw => hno ⟨e, he, hw⟩
  cases hs with
  | load ht hv =>
      dsimp only at hkeep
      rw [hkeep, ha] at hv
      cases hv

/-! ## A thread's own history -/

/-- What thread `t` has done; `none` is a barrier. -/
def own (t : τ) (log : List (Event τ A V)) : List (Option (Access A V)) :=
  log.filterMap fun
    | .access u x => if u = t then some (some x) else none
    | .barrier => some none

/-- The discipline: loads that find values of their cell's type leave the thread in
the discipline, its writes keep the types, and each access is one that `Q` allows
after the history so far. `E` holds of the result and the history at the end. -/
def Obeys (ty : A → V → Prop) (Q : List (Option (Access A V)) → Access A V → Prop)
    (E : R → List (Option (Access A V)) → Prop) :
    Prog A V R → List (Option (Access A V)) → Prop
  | .ret r, h => E r h
  | .load a k, h => ∀ v, ty a v → Q h (.load a v) ∧ Obeys ty Q E (k v) (h ++ [some (.load a v)])
  | .store a v k, h =>
      ty a v ∧ Q h (.store a v) ∧ Obeys ty Q E k (h ++ [some (.store a v)])
  | .cas a e d k, h =>
      (ty a e → ty a d ∧ Q h (.casOk a e d) ∧ Obeys ty Q E (k e) (h ++ [some (.casOk a e d)])) ∧
      ∀ v, ty a v → v ≠ e →
        Q h (.casFail a v) ∧ Obeys ty Q E (k v) (h ++ [some (.casFail a v)])
  | .sync k, h => Obeys ty Q E k (h ++ [none])

/-- Every initialised cell holds a value of its type. -/
def Typed (ty : A → V → Prop) (m : Mem A V) : Prop := ∀ a v, m a = some v → ty a v

section Obeys

variable {ty : A → V → Prop} {Q : List (Option (Access A V)) → Access A V → Prop}

omit [DecidableEq τ] in
/-- A store of the right type keeps the memory typed. -/
theorem Typed.update {m : Mem A V} (h : Typed ty m) {a : A} {v : V} (hv : ty a v) :
    Typed ty (update m a (some v)) := by
  intro b w hb
  by_cases hba : b = a
  · subst hba
    rw [Function.update_self] at hb
    rwa [← Option.some.inj hb]
  · rw [Function.update_of_ne hba] at hb
    exact h b w hb

omit [DecidableEq A] in
/-- What a thread does in two runs, one after the other. -/
theorem own_append (t : τ) (log log' : List (Event τ A V)) :
    own t (log ++ log') = own t log ++ own t log' := List.filterMap_append

omit [DecidableEq A] in
@[simp] theorem own_self (t : τ) (x : Access A V) :
    own t [.access t x] = [some x] := by simp [own]

omit [DecidableEq A] in
theorem own_of_ne {t u : τ} (h : u ≠ t) (x : Access A V) : own t [.access u x] = [] := by
  simp [own, h]

omit [DecidableEq A] in
@[simp] theorem own_barrier (t : τ) : own t [(.barrier : Event τ A V)] = [none] := rfl

/-- One step: the types are kept, its access was allowed, and every thread is left in
the discipline. -/
theorem Does.obeys {E : τ → R → List (Option (Access A V)) → Prop} {e : Event τ A V}
    {c c' : Config τ A V R} {log : List (Event τ A V)} (hs : Does e c c') (hty : Typed ty c.2)
    (h : ∀ t, Obeys ty Q (E t) (c.1 t) (own t log)) :
    Typed ty c'.2 ∧ (∀ t x, e = .access t x → Q (own t log) x) ∧
      ∀ t, Obeys ty Q (E t) (c'.1 t) (own t (log ++ [e])) := by
  -- the other threads have not moved
  have hrest : ∀ {progs : τ → Prog A V R} {t : τ} {x : Access A V} {p : Prog A V R},
      (∀ u, Obeys ty Q (E u) (progs u) (own u log)) →
      Obeys ty Q (E t) p (own t log ++ [some x]) →
      ∀ u, Obeys ty Q (E u) (update progs t p u) (own u (log ++ [.access t x])) := by
    intro progs t x p hall hp u
    rw [own_append]
    by_cases hu : u = t
    · subst hu
      rwa [Function.update_self, own_self]
    · rw [Function.update_of_ne hu, own_of_ne (Ne.symm hu), List.append_nil]
      exact hall u
  have hsame : ∀ {t : τ} {x : Access A V}, Q (own t log) x →
      ∀ u y, Event.access t x = Event.access u y → Q (own u log) y := by
    rintro t x hx u y heq
    cases heq
    exact hx
  cases hs with
  | @load progs m t a k v ht hv =>
      have hp := h t
      dsimp only at hp
      rw [ht] at hp
      obtain ⟨hq, hk⟩ := hp v (hty a v hv)
      exact ⟨hty, hsame hq, hrest h hk⟩
  | @store progs m t a v k ht =>
      have hp := h t
      dsimp only at hp
      rw [ht] at hp
      obtain ⟨hv, hq, hk⟩ := hp
      exact ⟨hty.update hv, hsame hq, hrest h hk⟩
  | @casOk progs m t a e d k ht hv =>
      have hp := h t
      dsimp only at hp
      rw [ht] at hp
      obtain ⟨hd, hq, hk⟩ := hp.1 (hty a e hv)
      exact ⟨hty.update hd, hsame hq, hrest h hk⟩
  | @casFail progs m t a e d v k ht hv hne =>
      have hp := h t
      dsimp only at hp
      rw [ht] at hp
      obtain ⟨hq, hk⟩ := hp.2 v (hty a v hv) hne
      exact ⟨hty, hsame hq, hrest h hk⟩
  | @barrier progs ks m hall =>
      refine ⟨hty, fun t x hx => (nomatch hx), fun t => ?_⟩
      have hp := h t
      dsimp only at hp
      rw [hall t] at hp
      rw [own_append, own_barrier]
      exact hp

/-- **The discipline along a run.** -/
theorem Run.obeys {E : τ → R → List (Option (Access A V)) → Prop} {c0 c : Config τ A V R}
    {log : List (Event τ A V)} (hrun : Run c0 log c) (hty : Typed ty c0.2)
    (h : ∀ t, Obeys ty Q (E t) (c0.1 t) []) :
    Typed ty c.2 ∧ ∀ t, Obeys ty Q (E t) (c.1 t) (own t log) := by
  induction hrun with
  | start => exact ⟨hty, h⟩
  | tail _ hs ih =>
      obtain ⟨hty', -, hall⟩ := hs.obeys ih.1 ih.2
      exact ⟨hty', hall⟩

/-- Every access in the log was allowed after its thread's history. -/
theorem Run.allowed {E : τ → R → List (Option (Access A V)) → Prop} {c0 c : Config τ A V R}
    {pre post : List (Event τ A V)} {t : τ} {x : Access A V}
    (hrun : Run c0 (pre ++ .access t x :: post) c) (hty : Typed ty c0.2)
    (h : ∀ t, Obeys ty Q (E t) (c0.1 t) []) : Q (own t pre) x := by
  obtain ⟨c1, c2, h1, hs, -⟩ := hrun.at_entry
  obtain ⟨hty1, hall⟩ := h1.obeys hty h
  exact (hs.obeys hty1 hall).2.1 t x rfl

omit [DecidableEq A] in
/-- The rule for two programs in sequence: the second goes on with the accesses of the first. -/
theorem obeys_bind {p : Prog A V R} {f : R → Prog A V S}
    {E : S → List (Option (Access A V)) → Prop} {h : List (Option (Access A V))}
    (hp : Obeys ty Q (fun r h => Obeys ty Q E (f r) h) p h) : Obeys ty Q E (p.bind f) h := by
  induction p generalizing h with
  | ret r => exact hp
  | sync k ih => exact ih hp
  | load a k ih => exact fun v hv => ⟨(hp v hv).1, ih v (hp v hv).2⟩
  | store a v k ih => exact ⟨hp.1, hp.2.1, ih hp.2.2⟩
  | cas a e d k ih =>
      refine ⟨fun he => ?_, fun v hv hne => ⟨(hp.2 v hv hne).1, ih v (hp.2 v hv hne).2⟩⟩
      obtain ⟨hd, hq, hk⟩ := hp.1 he
      exact ⟨hd, hq, ih e hk⟩

omit [DecidableEq A] in
theorem obeys_mono {E E' : R → List (Option (Access A V)) → Prop} {p : Prog A V R}
    {h : List (Option (Access A V))} (hp : Obeys ty Q E p h) (hE : ∀ r h, E r h → E' r h) :
    Obeys ty Q E' p h := by
  induction p generalizing h with
  | ret r => exact hE r h hp
  | sync k ih => exact ih hp
  | load a k ih => exact fun v hv => ⟨(hp v hv).1, ih v (hp v hv).2⟩
  | store a v k ih => exact ⟨hp.1, hp.2.1, ih hp.2.2⟩
  | cas a e d k ih =>
      refine ⟨fun he => ?_, fun v hv hne => ⟨(hp.2 v hv hne).1, ih v (hp.2 v hv hne).2⟩⟩
      obtain ⟨hd, hq, hk⟩ := hp.1 he
      exact ⟨hd, hq, ih e hk⟩

omit [DecidableEq A] in
/-- A loop whose body keeps `I` of the history. -/
theorem obeys_foldEach {α : Type} {I : List (Option (Access A V)) → Prop} {xs : List α}
    {body : R → α → Prog A V R}
    (hbody : ∀ r h, I h → ∀ x ∈ xs, Obeys ty Q (fun _ => I) (body r x) h) {r : R}
    {h : List (Option (Access A V))} (hI : I h) :
    Obeys ty Q (fun _ => I) (foldEach xs r body) h := by
  induction xs generalizing r h with
  | nil => exact hI
  | cons x xs ih =>
      apply obeys_bind
      refine obeys_mono (hbody r h hI x List.mem_cons_self) fun r' h' hI' => ?_
      exact ih (fun r h hI y hy => hbody r h hI y (List.mem_cons_of_mem _ hy)) hI'

end Obeys

end BarrierThreads
