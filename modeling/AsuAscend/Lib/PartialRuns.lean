/-
Runs of a partial step function.

`Throughout` asks something of every operation of a run, in the state that the
operation finds; where a step has no result the run ends, and nothing is asked of
what would come after. Both rules take an invariant over the operations done so far:
`Throughout.keeps` for what is asked, `reaches` for a run that gets to its end.
-/
import Mathlib.Data.List.Basic

set_option autoImplicit false

namespace PartialRuns

variable {Op σ : Type} (step : Op → σ → Option σ)

/-- The state at the end of a run. -/
def run : List Op → σ → Option σ
  | [], s => some s
  | op :: ops, s => (step op s).bind (run ops)

def Throughout (P : Op → σ → Prop) : List Op → σ → Prop
  | [], _ => True
  | op :: ops, s => P op s ∧ ∀ s', step op s = some s' → Throughout P ops s'

variable {step} {P Q : Op → σ → Prop} {ops : List Op} {s : σ}

instance decidableThroughout [∀ op s, Decidable (P op s)] :
    ∀ (ops : List Op) (s : σ), Decidable (Throughout step P ops s)
  | [], _ => isTrue trivial
  | op :: ops, s =>
      have := decidableThroughout ops
      decidable_of_iff (P op s ∧ ∀ s' ∈ step op s, Throughout step P ops s') Iff.rfl

/-- A run is a fold that stops where a step is undefined. -/
theorem run_eq_foldlM (ops : List Op) (s : σ) :
    run step ops s = ops.foldlM (fun s op => step op s) s := by
  induction ops generalizing s with
  | nil => rfl
  | cons op ops ih =>
      rw [run, List.foldlM_cons]
      cases step op s with
      | none => rfl
      | some s' => exact ih s'

theorem throughout_true : Throughout step (fun _ _ => True) ops s := by
  induction ops generalizing s with
  | nil => exact trivial
  | cons op ops ih => exact ⟨trivial, fun _ _ => ih⟩

theorem Throughout.and (h : Throughout step P ops s) (h' : Throughout step Q ops s) :
    Throughout step (fun op s => P op s ∧ Q op s) ops s := by
  induction ops generalizing s with
  | nil => trivial
  | cons op ops ih => exact ⟨⟨h.1, h'.1⟩, fun s' hs => ih (h.2 s' hs) (h'.2 s' hs)⟩

/-- The run may be cut short. -/
theorem Throughout.cut {done : List Op} (h : Throughout step P ops s) (hdone : done <+: ops) :
    Throughout step P done s := by
  induction done generalizing ops s with
  | nil => trivial
  | cons op done ih =>
      obtain ⟨rest, rfl⟩ := hdone
      exact ⟨h.1, fun s' hs => ih (h.2 s' hs) (List.prefix_append done rest)⟩

/-- **The invariant rule.** `I` speaks of the operations done so far and of the state they have
led to; `Q` is what is known of the run. -/
theorem Throughout.keeps (I : List Op → σ → Prop) (h0 : I [] s) (hQ : Throughout step Q ops s)
    (hstep : ∀ pre op suf s, ops = pre ++ op :: suf → I pre s → Q op s →
      P op s ∧ ∀ s', step op s = some s' → I (pre ++ [op]) s') : Throughout step P ops s := by
  have key : ∀ (suf pre : List Op) (s : σ), ops = pre ++ suf → I pre s → Throughout step Q suf s →
      Throughout step P suf s := by
    intro suf
    induction suf with
    | nil => exact fun _ _ _ _ _ => trivial
    | cons op suf ih =>
        intro pre s hsplit hI hQ
        obtain ⟨hP, hnext⟩ := hstep pre op suf s hsplit hI hQ.1
        refine ⟨hP, fun s' hs => ih (pre ++ [op]) s' ?_ (hnext s' hs) (hQ.2 s' hs)⟩
        rw [hsplit, List.append_assoc, List.singleton_append]
  exact key ops [] s rfl h0 hQ

/-- Along a run that ends, the invariant gets to the end. -/
theorem run_keeps (I : List Op → σ → Prop) (h0 : I [] s) (hQ : Throughout step Q ops s) {s' : σ}
    (hrun : run step ops s = some s')
    (hstep : ∀ pre op suf s s', ops = pre ++ op :: suf → I pre s → Q op s → step op s = some s' →
      I (pre ++ [op]) s') : I ops s' := by
  have key : ∀ (suf pre : List Op) (s : σ), ops = pre ++ suf → I pre s → Throughout step Q suf s →
      run step suf s = some s' → I ops s' := by
    intro suf
    induction suf with
    | nil =>
        intro pre s hsplit hI _ hrun
        rw [List.append_nil] at hsplit
        cases hrun
        exact hsplit ▸ hI
    | cons op suf ih =>
        intro pre s hsplit hI hQ hrun
        obtain ⟨s1, hs1, hrun⟩ := Option.bind_eq_some_iff.mp hrun
        exact ih (pre ++ [op]) s1 (by rw [hsplit, List.append_assoc, List.singleton_append])
          (hstep pre op suf s s1 hsplit hI hQ.1 hs1) (hQ.2 s1 hs1) hrun
  exact key ops [] s rfl h0 hQ hrun

/-- If every step on the way is defined the run is. -/
theorem exists_run (h : Throughout step (fun op s => ∃ s', step op s = some s') ops s) :
    ∃ s', run step ops s = some s' := by
  induction ops generalizing s with
  | nil => exact ⟨s, rfl⟩
  | cons op ops ih =>
      obtain ⟨⟨s1, hs1⟩, hnext⟩ := h
      obtain ⟨s', hs'⟩ := ih (hnext s1 hs1)
      exact ⟨s', by rw [run, hs1]; exact hs'⟩

/-- **The progress rule.** Where each step has a result, the run gets to its end. -/
theorem reaches (I : List Op → σ → Prop) (h0 : I [] s) (hQ : Throughout step Q ops s)
    (hstep : ∀ pre op suf s, ops = pre ++ op :: suf → I pre s → Q op s →
      ∃ s', step op s = some s' ∧ I (pre ++ [op]) s') : ∃ s', run step ops s = some s' ∧ I ops s' := by
  have hkeep : ∀ pre op suf s s', ops = pre ++ op :: suf → I pre s → Q op s → step op s = some s' →
      I (pre ++ [op]) s' := by
    intro pre op suf s s' hsplit hI hq hs
    obtain ⟨s1, hs1, hI1⟩ := hstep pre op suf s hsplit hI hq
    rw [hs] at hs1
    cases hs1
    exact hI1
  have hsome : Throughout step (fun op s => ∃ s', step op s = some s') ops s := by
    refine Throughout.keeps I h0 hQ fun pre op suf s hsplit hI hq => ?_
    obtain ⟨s1, hs1, -⟩ := hstep pre op suf s hsplit hI hq
    exact ⟨⟨s1, hs1⟩, fun s' hs' => hkeep pre op suf s s' hsplit hI hq hs'⟩
  obtain ⟨s', hrun⟩ := exists_run hsome
  exact ⟨s', hrun, run_keeps I h0 hQ hrun hkeep⟩

end PartialRuns
