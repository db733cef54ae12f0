/-
Threads over one shared memory, interleaved one memory access at a time and
synchronised by full barriers.

A thread's program is a tree: each load and each compare-and-swap branches on the
value it finds, a bounded loop is already unrolled, and `sync` is a barrier. A
step either performs the next access of one thread, whichever, or, once every
thread waits at a barrier, releases all of them. A memory cell may be
uninitialised; a load from such a cell, or any access outside `dom`, has no step,
so that a proof of progress is a proof that no thread commits either fault.

`step_wf`: the trees are well-founded, so no schedule of finitely many threads
runs for ever.

## Design

The program tree has no variables and no loops: what a thread computes between two accesses is
part of the function that chooses the subtree, and `foldEach` unrolls a loop over a list. Two
programs are equal when they make the same accesses, however they compute. `Config` is the trees of
all threads with the memory, and a step rewrites one of the trees.

A barrier is released only when every thread waits at one. A thread that waits for another one
which has returned is stuck, and shows up as such.
-/
import Mathlib.Data.DFinsupp.WellFounded
import Mathlib.Logic.Function.Basic
import Mathlib.Logic.Relation
import Mathlib.Order.WellFounded

set_option autoImplicit false

open Function (update)

namespace BarrierThreads

/-! ## Programs -/

/-- A thread's program over addresses `A` and cell values `V`. -/
inductive Prog (A V R : Type) : Type where
  | ret (r : R)
  | load (a : A) (k : V → Prog A V R)
  | store (a : A) (v : V) (k : Prog A V R)
  | cas (a : A) (expected desired : V) (k : V → Prog A V R)
  | sync (k : Prog A V R)

namespace Prog

variable {A V R S : Type}

protected def bind : Prog A V R → (R → Prog A V S) → Prog A V S
  | ret r, f => f r
  | load a k, f => load a fun v => (k v).bind f
  | store a v k, f => store a v (k.bind f)
  | cas a e d k, f => cas a e d fun v => (k v).bind f
  | sync k, f => sync (k.bind f)

instance : Monad (Prog A V) where
  pure := ret
  bind := Prog.bind

/-- Read a cell. -/
def read (a : A) : Prog A V V := load a ret

/-- Write a cell. -/
def write (a : A) (v : V) : Prog A V Unit := store a v (ret ())

/-- Compare and swap; the value found is returned. -/
def atomicCas (a : A) (expected desired : V) : Prog A V V := cas a expected desired ret

/-- Wait for every other thread. -/
def barrier : Prog A V Unit := sync (ret ())

/-- A loop that carries a value. -/
def foldEach {α : Type} : List α → R → (R → α → Prog A V R) → Prog A V R
  | [], r, _ => ret r
  | x :: xs, r, body => (body r x).bind fun r' => foldEach xs r' body

/-- A loop that carries nothing. -/
def forEach {α : Type} (xs : List α) (body : α → Prog A V Unit) : Prog A V Unit :=
  foldEach xs () fun _ x => body x

/-- The program has come to a barrier or to its end. -/
def AtEnd : Prog A V R → Prop
  | ret _ => True
  | sync _ => True
  | _ => False

@[simp] theorem bind_ret (r : R) (f : R → Prog A V S) : (ret r : Prog A V R).bind f = f r := rfl

@[simp] theorem bind_sync (k : Prog A V R) (f : R → Prog A V S) :
    (sync k).bind f = sync (k.bind f) := rfl

@[simp] theorem pure_eq (r : R) : (pure r : Prog A V R) = ret r := rfl

@[simp] theorem bind_eq (p : Prog A V R) (f : R → Prog A V S) : p >>= f = p.bind f := rfl

@[simp] theorem read_bind (a : A) (f : V → Prog A V R) : (read a).bind f = load a f := rfl

@[simp] theorem write_bind (a : A) (v : V) (f : Unit → Prog A V R) :
    (write a v).bind f = store a v (f ()) := rfl

@[simp] theorem atomicCas_bind (a : A) (e d : V) (f : V → Prog A V R) :
    (atomicCas a e d).bind f = cas a e d f := rfl

@[simp] theorem barrier_bind (f : Unit → Prog A V R) :
    (barrier : Prog A V Unit).bind f = sync (f ()) := rfl

/-- Programs in sequence associate, by induction on the first. -/
theorem bind_assoc {T : Type} (p : Prog A V R) (f : R → Prog A V S) (g : S → Prog A V T) :
    (p.bind f).bind g = p.bind fun r => (f r).bind g := by
  induction p with
  | ret r => rfl
  | sync k ih => exact congrArg sync ih
  | load a k ih => exact congrArg (load a) (funext ih)
  | store a v k ih => exact congrArg (store a v) ih
  | cas a e d k ih => exact congrArg (cas a e d) (funext ih)

end Prog

open Prog

/-! ## Interleavings -/

/-- A shared memory; `none` is an uninitialised cell. -/
abbrev Mem (A V : Type) := A → Option V

variable {τ A V R : Type} [DecidableEq τ] [DecidableEq A]

/-- Every thread's remaining program, and the memory. -/
abbrev Config (τ A V R : Type) := (τ → Prog A V R) × Mem A V

/-- One access of one thread, or the release of a barrier that all have reached. -/
inductive Step (dom : A → Prop) : Config τ A V R → Config τ A V R → Prop
  | load {progs : τ → Prog A V R} {m : Mem A V} {t : τ} {a : A} {k : V → Prog A V R} {v : V}
      (ht : progs t = .load a k) (hd : dom a) (hv : m a = some v) :
      Step dom (progs, m) (update progs t (k v), m)
  | store {progs : τ → Prog A V R} {m : Mem A V} {t : τ} {a : A} {v : V} {k : Prog A V R}
      (ht : progs t = .store a v k) (hd : dom a) :
      Step dom (progs, m) (update progs t k, update m a (some v))
  | casOk {progs : τ → Prog A V R} {m : Mem A V} {t : τ} {a : A} {e d : V} {k : V → Prog A V R}
      (ht : progs t = .cas a e d k) (hd : dom a) (hv : m a = some e) :
      Step dom (progs, m) (update progs t (k e), update m a (some d))
  | casFail {progs : τ → Prog A V R} {m : Mem A V} {t : τ} {a : A} {e d v : V}
      {k : V → Prog A V R} (ht : progs t = .cas a e d k) (hd : dom a) (hv : m a = some v)
      (hne : v ≠ e) : Step dom (progs, m) (update progs t (k v), m)
  | barrier {progs ks : τ → Prog A V R} {m : Mem A V} (h : ∀ t, progs t = .sync (ks t)) :
      Step dom (progs, m) (ks, m)

/-- Any number of steps. -/
abbrev Steps (dom : A → Prop) : Config τ A V R → Config τ A V R → Prop :=
  Relation.ReflTransGen (Step dom)

/-- No step is left. -/
def Stuck (dom : A → Prop) (c : Config τ A V R) : Prop := ∀ c', ¬ Step dom c c'

/-! ## Termination -/

/-- `q` is what remains of `p` after one access or one barrier. -/
inductive Next : Prog A V R → Prog A V R → Prop
  | load (a : A) (k : V → Prog A V R) (v : V) : Next (k v) (.load a k)
  | store (a : A) (v : V) (k : Prog A V R) : Next k (.store a v k)
  | cas (a : A) (e d : V) (k : V → Prog A V R) (v : V) : Next (k v) (.cas a e d k)
  | sync (k : Prog A V R) : Next k (.sync k)

omit [DecidableEq A] in
/-- A program only gets shorter: what follows an access is a part of it. -/
theorem next_wf : WellFounded (Next : Prog A V R → Prog A V R → Prop) := by
  refine ⟨fun p => ?_⟩
  induction p with
  | ret r => exact ⟨_, fun q h => nomatch h⟩
  | load a k ih => refine ⟨_, fun q h => ?_⟩; cases h with | load _ _ v => exact ih v
  | store a v k ih => refine ⟨_, fun q h => ?_⟩; cases h with | store => exact ih
  | cas a e d k ih => refine ⟨_, fun q h => ?_⟩; cases h with | cas _ _ _ _ v => exact ih v
  | sync k ih => refine ⟨_, fun q h => ?_⟩; cases h with | sync => exact ih

/-- One thread's program has become a part of it, or those of several have: the lexicographic
order on thread-indexed families. -/
def Shorter [LT τ] : (τ → Prog A V R) → (τ → Prog A V R) → Prop :=
  Pi.Lex (· < ·) fun {_ : τ} => Next

omit [DecidableEq τ] [DecidableEq A] in
/-- So do the programs of finitely many threads, of which one moves or all do. -/
theorem shorter_wf [LinearOrder τ] [Finite τ] :
    WellFounded (Shorter : (τ → Prog A V R) → (τ → Prog A V R) → Prop) :=
  Pi.Lex.wellFounded (· < ·) fun _ => next_wf

/-- Every step shortens the programs. -/
theorem Step.shorter [LinearOrder τ] [Finite τ] [Nonempty τ] {dom : A → Prop}
    {c c' : Config τ A V R} (h : Step dom c c') : Shorter c'.1 c.1 := by
  have hone : ∀ (progs : τ → Prog A V R) (t : τ) (q : Prog A V R), Next q (progs t) →
      Shorter (update progs t q) progs := by
    intro progs t q hq
    refine ⟨t, fun u hu => Function.update_of_ne (ne_of_lt hu) _ _, ?_⟩
    rw [Function.update_self]
    exact hq
  cases h with
  | load ht hd hv => exact hone _ _ _ (by rw [ht]; exact .load _ _ _)
  | store ht hd => exact hone _ _ _ (by rw [ht]; exact .store _ _ _)
  | casOk ht hd hv => exact hone _ _ _ (by rw [ht]; exact .cas _ _ _ _ _)
  | casFail ht hd hv hne => exact hone _ _ _ (by rw [ht]; exact .cas _ _ _ _ _)
  | barrier h =>
      -- the least thread decides
      obtain ⟨t, ht⟩ := exists_minimal_of_wellFoundedLT (fun _ : τ => True)
        ⟨Classical.arbitrary τ, trivial⟩
      refine ⟨t, fun u hu => absurd (ht.2 trivial (le_of_lt hu)) (not_le_of_gt hu), ?_⟩
      dsimp only
      rw [h t]
      exact .sync _

/-- **No schedule runs for ever.** -/
theorem step_wf [LinearOrder τ] [Finite τ] [Nonempty τ] (dom : A → Prop) :
    WellFounded fun c' c : Config τ A V R => Step dom c c' :=
  Subrelation.wf (fun {_ _} h => h.shorter) (InvImage.wf Prod.fst shorter_wf)

/-- **Every run ends**, whoever moves when. -/
theorem no_infinite_run [LinearOrder τ] [Finite τ] [Nonempty τ] (dom : A → Prop) :
    ¬ ∃ run : ℕ → Config τ A V R, ∀ n, Step dom (run n) (run (n + 1)) := fun ⟨run, h⟩ =>
  (wellFounded_iff_isEmpty_descending_chain.mp (step_wf dom)).false ⟨run, h⟩

end BarrierThreads
