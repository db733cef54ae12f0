/-
Objects whose operations run one after another.

`step o s` is the result of operation `o` on state `s` and the state it leaves.
`after` and `trace` run a list of operations; `Views` says that one object is an
abstraction of another, and then both give every list the same results.

## Views

A view maps each state of one object to a state of the other, so that every operation has the same
result on both sides and leads to states that correspond again. From this follow the same statements
about lists of operations, by induction, for the final state and for the results on the way.
-/
import Mathlib.Data.List.Basic

set_option autoImplicit false

namespace SequentialObject

variable {Op : Type} {Res : Op → Type} {σ τ : Type}

/-- The state after the operations, in order. -/
def after (step : (o : Op) → σ → Res o × σ) (s : σ) (ops : List Op) : σ :=
  ops.foldl (fun s o => (step o s).2) s

/-- The operations with the results they have when run in order. -/
def trace (step : (o : Op) → σ → Res o × σ) : σ → List Op → List ((o : Op) × Res o)
  | _, [] => []
  | s, o :: os => ⟨o, (step o s).1⟩ :: trace step (step o s).2 os

section Runs

variable (step : (o : Op) → σ → Res o × σ) (s : σ)

@[simp] theorem after_nil : after step s [] = s := rfl

@[simp] theorem after_cons (o : Op) (os : List Op) :
    after step s (o :: os) = after step (step o s).2 os := rfl

/-- Two runs of operations, one after the other. -/
theorem after_append (os os' : List Op) :
    after step s (os ++ os') = after step (after step s os) os' := List.foldl_append

/-- A trace has the operations that were asked for. -/
@[simp] theorem map_fst_trace (os : List Op) : (trace step s os).map Sigma.fst = os := by
  induction os generalizing s with
  | nil => rfl
  | cons o os ih => rw [trace, List.map_cons, ih]

/-- The trace of two runs is that of the first and then that of the second, from where the first
has come to. -/
theorem trace_append (os os' : List Op) :
    trace step s (os ++ os') = trace step s os ++ trace step (after step s os) os' := by
  induction os generalizing s with
  | nil => rfl
  | cons o os ih =>
      rw [List.cons_append, trace, trace, ih, after_cons, List.cons_append]

@[simp] theorem length_trace (os : List Op) : (trace step s os).length = os.length := by
  rw [← List.length_map (f := Sigma.fst), map_fst_trace]

/-- The `n`-th result is the operation's on the state after the ones before it. -/
theorem trace_getElem? {os : List Op} {n : ℕ} {e : (o : Op) × Res o}
    (h : (trace step s os)[n]? = some e) :
    os[n]? = some e.1 ∧ e.2 = (step e.1 (after step s (os.take n))).1 := by
  induction os generalizing s n with
  | nil => simp [trace] at h
  | cons o os ih =>
      cases n with
      | zero =>
          rw [trace, List.getElem?_cons_zero, Option.some.injEq] at h
          subst h
          exact ⟨rfl, rfl⟩
      | succ n =>
          rw [trace, List.getElem?_cons_succ] at h
          exact ih _ h

end Runs

/-- `view` carries every step of the one object to a step of the other with the
same result. -/
def Views (step : (o : Op) → σ → Res o × σ) (step' : (o : Op) → τ → Res o × τ) (view : σ → τ) :
    Prop :=
  ∀ o s, (step' o (view s)).1 = (step o s).1 ∧ (step' o (view s)).2 = view (step o s).2

section Views

variable {step : (o : Op) → σ → Res o × σ} {step' : (o : Op) → τ → Res o × τ} {view : σ → τ}

/-- A view that the steps respect is respected by a run. -/
theorem Views.after_eq (h : Views step step' view) (s : σ) (os : List Op) :
    after step' (view s) os = view (after step s os) := by
  induction os generalizing s with
  | nil => rfl
  | cons o os ih => rw [after_cons, after_cons, (h o s).2, ih]

/-- And the results are the same on both sides. -/
theorem Views.trace_eq (h : Views step step' view) (s : σ) (os : List Op) :
    trace step' (view s) os = trace step s os := by
  induction os generalizing s with
  | nil => rfl
  | cons o os ih => rw [trace, trace, (h o s).1, (h o s).2, ih]

end Views

end SequentialObject
