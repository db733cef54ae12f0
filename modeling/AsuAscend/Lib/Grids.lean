/-
Blocks of threads over one memory.

The threads of a block share its barriers; the blocks are not synchronised with each
other, and interleave one memory access at a time. A block's program names cells by the
block's own addresses, and `place b` says where in the common memory they lie.

Blocks whose cells lie apart do not notice each other: seen from any of its blocks, a run
of the grid is a run of that block alone (`Seen`, `Seen.run`).

## Moving a program

`Prog.placed` renames the cells of a program, and `Prog.Within` says that its next access stays in
a set of cells; `Contained` that this is so in every configuration that a block can reach alone.
With both, the memory of a block is a view of the common one through `place b`, and blocks that lie
apart write outside each other's view. For termination the blocks are finitely many, each as
before.
-/
import AsuAscend.Lib.RelyGuarantee

set_option autoImplicit false

open Function (update)

namespace BarrierThreads

open Prog

variable {β τ A G V R : Type}

/-! ## Programs that are moved -/

/-- The program with every address replaced by the place of the cell. -/
def Prog.placed (place : A → G) : Prog A V R → Prog G V R
  | ret r => ret r
  | load a k => load (place a) fun v => (k v).placed place
  | store a v k => store (place a) v (k.placed place)
  | cas a e d k => cas (place a) e d fun v => (k v).placed place
  | sync k => sync (k.placed place)

section Placed

variable {place : A → G} {p : Prog A V R}

/-- A placed program that loads is a program that loads, with the cell placed. -/
theorem placed_eq_load {g : G} {k : V → Prog G V R} (h : p.placed place = .load g k) :
    ∃ a q, p = .load a q ∧ place a = g ∧ k = fun v => (q v).placed place := by
  cases p <;> cases h
  exact ⟨_, _, rfl, rfl, rfl⟩

theorem placed_eq_store {g : G} {v : V} {k : Prog G V R} (h : p.placed place = .store g v k) :
    ∃ a q, p = .store a v q ∧ place a = g ∧ k = q.placed place := by
  cases p <;> cases h
  exact ⟨_, _, rfl, rfl, rfl⟩

theorem placed_eq_cas {g : G} {e d : V} {k : V → Prog G V R} (h : p.placed place = .cas g e d k) :
    ∃ a q, p = .cas a e d q ∧ place a = g ∧ k = fun v => (q v).placed place := by
  cases p <;> cases h
  exact ⟨_, _, rfl, rfl, rfl⟩

theorem placed_eq_sync {k : Prog G V R} (h : p.placed place = .sync k) :
    ∃ q, p = .sync q ∧ k = q.placed place := by
  cases p <;> cases h
  exact ⟨_, rfl, rfl⟩

end Placed

/-! ## Programs that stay in their cells -/

/-- The next access of the program, if it is one, is to a cell of `dom`. -/
def Prog.Within (dom : A → Prop) : Prog A V R → Prop
  | ret _ => True
  | load a _ => dom a
  | store a _ _ => dom a
  | cas a _ _ _ => dom a
  | sync _ => True

/-- No run from `c` comes to an access outside `dom`. -/
def Contained [DecidableEq τ] [DecidableEq A] (dom : A → Prop) (c : Config τ A V R) : Prop :=
  ∀ c', Steps dom c c' → ∀ t, (c'.1 t).Within dom

section Contained

variable [DecidableEq τ] [DecidableEq A] {S : Type} {dom : A → Prop}

omit [DecidableEq τ] in
/-- Every thread stays in the domain, as the contract has it. -/
theorem Contract.Running.within {C : Contract τ S A V} {E : τ → Prog A V R → S → Mem A V → Prop}
    {progs : τ → Prog A V R} {m : Mem A V} (h : C.Running dom E progs m) (t : τ) :
    (progs t).Within dom := by
  obtain ⟨s, hi, hsafe⟩ := h
  have hst := hsafe t
  cases hp : progs t with
  | ret r => trivial
  | sync k => trivial
  | load a k =>
      rw [hp] at hst
      exact (Contract.Always.now hst hi).1
  | store a v k =>
      rw [hp] at hst
      exact (Contract.Always.now hst hi).1
  | cas a e d k =>
      rw [hp] at hst
      exact (Contract.Always.now hst hi).1

/-- Threads that have been proved correct stay in their cells. -/
theorem Correct.contained [Nonempty τ] {Post : (τ → R) → Mem A V → Prop} {c : Config τ A V R}
    (h : Correct dom Post c.1 c.2) : Contained dom c := by
  intro c' hsteps t
  cases h.steps hsteps with
  | last C E hrun hpost => exact hrun.within t
  | next C E hrun hnext => exact hrun.within t

end Contained

/-! ## Grids -/

/-- Every block's threads with their remaining programs, and the memory. -/
abbrev Grid (β τ G V R : Type) := (β → τ → Prog G V R) × Mem G V

variable [DecidableEq β] [DecidableEq τ] [DecidableEq A] [DecidableEq G]

/-- One step of one block. -/
inductive GridStep (dom : G → Prop) : Grid β τ G V R → Grid β τ G V R → Prop
  | block {progs : β → τ → Prog G V R} {m : Mem G V} (b : β) {c : Config τ G V R}
      (h : Step dom (progs b, m) c) : GridStep dom (progs, m) (update progs b c.1, c.2)

abbrev GridSteps (dom : G → Prop) : Grid β τ G V R → Grid β τ G V R → Prop :=
  Relation.ReflTransGen (GridStep dom)

/-- No block has a step left. -/
def GridStuck (dom : G → Prop) (c : Grid β τ G V R) : Prop := ∀ c', ¬ GridStep dom c c'

/-- **No schedule of the blocks runs for ever**. -/
theorem gridStep_wf [LinearOrder β] [Finite β] [LinearOrder τ] [Finite τ] [Nonempty τ]
    (dom : G → Prop) : WellFounded fun c' c : Grid β τ G V R => GridStep dom c c' := by
  have hlex : WellFounded (Pi.Lex (· < ·) fun {_ : β} => (Shorter : (τ → Prog G V R) → _ → Prop)) :=
    Pi.Lex.wellFounded (· < ·) fun _ => shorter_wf
  refine Subrelation.wf (fun {c' c} h => ?_) (InvImage.wf Prod.fst hlex)
  cases h with
  | block b hs =>
      refine ⟨b, fun u hu => Function.update_of_ne (ne_of_lt hu) _ _, ?_⟩
      dsimp only
      rw [Function.update_self]
      exact hs.shorter

/-- **Every run of a grid ends**, whichever block and thread moves when. -/
theorem no_infinite_grid_run [LinearOrder β] [Finite β] [LinearOrder τ] [Finite τ] [Nonempty τ]
    (dom : G → Prop) :
    ¬ ∃ run : ℕ → Grid β τ G V R, ∀ n, GridStep dom (run n) (run (n + 1)) := fun ⟨run, h⟩ =>
  (wellFounded_iff_isEmpty_descending_chain.mp (gridStep_wf dom)).false ⟨run, h⟩

/-- Some schedule of the blocks comes to an end. -/
theorem exists_gridStuck [LinearOrder β] [Finite β] [LinearOrder τ] [Finite τ] [Nonempty τ]
    (dom : G → Prop) (c : Grid β τ G V R) : ∃ c', GridSteps dom c c' ∧ GridStuck dom c' := by
  apply (gridStep_wf dom).fix (C := fun c => ∃ c', GridSteps dom c c' ∧ GridStuck dom c')
  intro c ih
  by_cases hst : GridStuck dom c
  · exact ⟨c, .refl, hst⟩
  · simp only [GridStuck, not_forall, not_not] at hst
    obtain ⟨c1, h1⟩ := hst
    obtain ⟨c', h', hst'⟩ := ih c1 h1
    exact ⟨c', .head h1 h', hst'⟩

/-! ## Blocks that lie apart -/

section Apart

variable (place : β → A → G) (inside : A → Prop) [DecidablePred inside]

/-- The cells of block `b` in the common memory. -/
def blockView (b : β) (m : Mem G V) : Mem A V := fun a => if inside a then m (place b a) else none

/-- The cells of the blocks have places of their own, all of them in `dom`. -/
structure Apart (dom : G → Prop) : Prop where
  inj : ∀ b b' a a', inside a → inside a' → place b a = place b' a' → b = b' ∧ a = a'
  mem : ∀ b a, inside a → dom (place b a)

variable {place inside} {dom : G → Prop} {m : Mem G V}

omit [DecidableEq β] [DecidableEq A] [DecidableEq G] in
/-- A block sees the shared cells where they are placed. -/
theorem blockView_inside {b : β} {a : A} (h : inside a) :
    blockView place inside b m a = m (place b a) := if_pos h

omit [DecidableEq β] in
/-- What one block stores is stored in its own view. -/
theorem blockView_update (hap : Apart place inside dom) {b : β} {a : A} (h : inside a) (x : Option V) :
    blockView place inside b (update m (place b a) x) = update (blockView place inside b m) a x := by
  funext a'
  by_cases heq : a' = a
  · rw [heq, Function.update_self, blockView_inside h, Function.update_self]
  · rw [Function.update_of_ne heq]
    unfold blockView
    by_cases hin : inside a'
    · rw [if_pos hin, if_pos hin]
      exact Function.update_of_ne (fun hplace => heq (hap.inj _ _ _ _ hin h hplace).2) _ _
    · rw [if_neg hin, if_neg hin]

omit [DecidableEq β] [DecidableEq A] in
/-- The other blocks see nothing of it. -/
theorem blockView_update_other (hap : Apart place inside dom) {b b' : β} (hne : b' ≠ b) {a : A}
    (h : inside a) (x : Option V) :
    blockView place inside b' (update m (place b a) x) = blockView place inside b' m := by
  funext a'
  unfold blockView
  by_cases hin : inside a'
  · rw [if_pos hin, if_pos hin]
    exact Function.update_of_ne (fun hplace => hne (hap.inj _ _ _ _ hin h hplace).1) _ _
  · rw [if_neg hin, if_neg hin]

variable (place inside)

/-- The grid `c`, seen block by block: what is left of the programs, and that each block has
come there by steps of its own. Cells of no block are as they were. -/
structure Seen (progs : β → τ → Prog A V R) (m : Mem G V) (rest : β → τ → Prog A V R)
    (c : Grid β τ G V R) : Prop where
  programs : c.1 = fun b t => (rest b t).placed (place b)
  steps : ∀ b, Steps inside (progs b, blockView place inside b m)
    (rest b, blockView place inside b c.2)
  frame : ∀ g, (∀ b a, inside a → place b a ≠ g) → c.2 g = m g

variable {place inside} {progs rest : β → τ → Prog A V R} {c c' : Grid β τ G V R}

omit [DecidableEq G] in
/-- A step of one block, on its view, that leaves the other blocks' views alone. -/
theorem Seen.advance {ks : τ → Prog A V R} {m' : Mem G V} (h : Seen place inside progs m rest c)
    (b : β) (hstep : Step inside (rest b, blockView place inside b c.2)
      (ks, blockView place inside b m'))
    (hother : ∀ b', b' ≠ b → blockView place inside b' m' = blockView place inside b' c.2)
    (hframe : ∀ g, (∀ a, inside a → place b a ≠ g) → m' g = c.2 g) :
    ∃ rest', Seen place inside progs m rest'
      (update c.1 b fun t => (ks t).placed (place b), m') := by
  refine ⟨update rest b ks, ?_, fun b' => ?_, fun g hg => (hframe g (hg b)).trans (h.frame g hg)⟩
  · funext b' t
    dsimp only
    by_cases hb : b' = b
    · subst hb
      rw [Function.update_self, Function.update_self]
    · rw [Function.update_of_ne hb, Function.update_of_ne hb, h.programs]
  · by_cases hb : b' = b
    · subst hb
      rw [Function.update_self]
      exact (h.steps b').tail hstep
    · rw [Function.update_of_ne hb]
      dsimp only
      rw [hother b' hb]
      exact h.steps b'

omit [DecidableEq A] [DecidableEq G] in
/-- Updating a placed program is placing an updated one. -/
theorem placed_update {ps : τ → Prog A V R} {f : A → G} {t : τ} {q : Prog A V R} :
    update (fun u => (ps u).placed f) t (q.placed f) = fun u => (update ps t q u).placed f := by
  funext u
  by_cases hu : u = t
  · subst hu
    rw [Function.update_self, Function.update_self]
  · rw [Function.update_of_ne hu, Function.update_of_ne hu]

/-- **Blocks do not notice each other.** -/
theorem Seen.step (hap : Apart place inside dom)
    (hin : ∀ b, Contained inside (progs b, blockView place inside b m))
    (h : Seen place inside progs m rest c) (hs : GridStep dom c c') :
    ∃ rest', Seen place inside progs m rest' c' := by
  obtain ⟨ps, mem⟩ := c
  cases hs with
  | @block _ _ b c1 hstep =>
      have hps : ps = fun b t => (rest b t).placed (place b) := h.programs
      have hwithin : ∀ t, (rest b t).Within inside := hin b _ (h.steps b)
      rw [hps] at hstep
      dsimp only at hstep
      cases hstep with
      | @load _ _ t g k v ht hd hv =>
          obtain ⟨a, q, hp, rfl, rfl⟩ := placed_eq_load ht
          have ha : inside a := by have := hwithin t; rw [hp] at this; exact this
          rw [placed_update]
          refine h.advance b (.load hp ha ?_) (fun _ _ => rfl) fun _ _ => rfl
          rw [blockView_inside ha]
          exact hv
      | @store _ _ t g v k ht hd =>
          obtain ⟨a, q, hp, rfl, rfl⟩ := placed_eq_store ht
          have ha : inside a := by have := hwithin t; rw [hp] at this; exact this
          rw [placed_update]
          refine h.advance b ?_ (fun b' hb => blockView_update_other hap hb ha _)
            fun g hg => Function.update_of_ne (fun heq => hg a ha heq.symm) _ _
          rw [blockView_update hap ha]
          exact .store hp ha
      | @casOk _ _ t g e d k ht hd hv =>
          obtain ⟨a, q, hp, rfl, rfl⟩ := placed_eq_cas ht
          have ha : inside a := by have := hwithin t; rw [hp] at this; exact this
          rw [placed_update]
          refine h.advance b ?_ (fun b' hb => blockView_update_other hap hb ha _)
            fun g hg => Function.update_of_ne (fun heq => hg a ha heq.symm) _ _
          rw [blockView_update hap ha]
          refine .casOk hp ha ?_
          rw [blockView_inside ha]
          exact hv
      | @casFail _ _ t g e d v k ht hd hv hne =>
          obtain ⟨a, q, hp, rfl, rfl⟩ := placed_eq_cas ht
          have ha : inside a := by have := hwithin t; rw [hp] at this; exact this
          rw [placed_update]
          refine h.advance b (.casFail hp ha ?_ hne) (fun _ _ => rfl) fun _ _ => rfl
          rw [blockView_inside ha]
          exact hv
      | @barrier _ ks _ hall =>
          -- the threads of this block alone wait for each other
          choose qs hqs hks using fun t => placed_eq_sync (hall t)
          obtain rfl : ks = fun t => (qs t).placed (place b) := funext hks
          exact h.advance b (.barrier hqs) (fun _ _ => rfl) fun _ _ => rfl

omit [DecidableEq β] [DecidableEq G] in
/-- At the start every block sees the memory of its own. -/
theorem Seen.start : Seen place inside progs m progs (fun b t => (progs b t).placed (place b), m) :=
  ⟨rfl, fun _ => .refl, fun _ _ => rfl⟩

/-- A whole run of the grid. -/
theorem Seen.run (hap : Apart place inside dom)
    (hin : ∀ b, Contained inside (progs b, blockView place inside b m))
    (hs : GridSteps dom (fun b t => (progs b t).placed (place b), m) c) :
    ∃ rest, Seen place inside progs m rest c := by
  induction hs with
  | refl => exact ⟨progs, .start⟩
  | tail _ hstep ih =>
      obtain ⟨rest, hseen⟩ := ih
      exact hseen.step hap hin hstep

/-- A block that has a step left on its view has one in the grid. -/
theorem Seen.stuck (hap : Apart place inside dom) (h : Seen place inside progs m rest c)
    (hst : GridStuck dom c) (b : β) : Stuck inside (rest b, blockView place inside b c.2) := by
  obtain ⟨ps, mem⟩ := c
  obtain rfl : ps = fun b t => (rest b t).placed (place b) := h.programs
  intro c' hstep
  dsimp only at hstep
  have hgo : ∀ {d : Config τ G V R}, ¬ Step dom (fun t => (rest b t).placed (place b), mem) d :=
    fun hd => hst _ (.block b hd)
  cases hstep with
  | load ht hd hv =>
      rw [blockView_inside hd] at hv
      exact hgo (.load (by rw [ht]; rfl) (hap.mem b _ hd) hv)
  | store ht hd => exact hgo (.store (by rw [ht]; rfl) (hap.mem b _ hd))
  | casOk ht hd hv =>
      rw [blockView_inside hd] at hv
      exact hgo (.casOk (by rw [ht]; rfl) (hap.mem b _ hd) hv)
  | casFail ht hd hv hne =>
      rw [blockView_inside hd] at hv
      exact hgo (.casFail (by rw [ht]; rfl) (hap.mem b _ hd) hv hne)
  | barrier hall => exact hgo (.barrier fun t => by rw [hall t]; rfl)

end Apart

end BarrierThreads
