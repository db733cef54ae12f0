/-
Operations on a map that keep to some cells.

`Local step cells` says that an operation `o` looks at the cells `cells o` of a map and
changes no others. Maps that agree on these give it the same result and go on to
agree; whoever looks at other cells does not see the operation.
-/
import Mathlib.Data.Set.Function

set_option autoImplicit false

namespace Footprints

variable {Op : Type} {Res : Op → Type} {α β : Type}
  {step : (o : Op) → (α → β) → Res o × (α → β)} {cells : Op → Set α}

structure Local (step : (o : Op) → (α → β) → Res o × (α → β)) (cells : Op → Set α) : Prop where
  frame : ∀ o m, ∀ a ∉ cells o, (step o m).2 a = m a
  agree : ∀ o m m', Set.EqOn m m' (cells o) →
    (step o m).1 = (step o m').1 ∧ Set.EqOn (step o m).2 (step o m').2 (cells o)

namespace Local

variable {o : Op} {V : Set α} {m m' : α → β}

/-- Whoever looks at the cells, and at others besides, sees the same operation on both maps. -/
theorem within (h : Local step cells) (hV : cells o ⊆ V) (hm : Set.EqOn m m' V) :
    (step o m).1 = (step o m').1 ∧ Set.EqOn (step o m).2 (step o m').2 V := by
  obtain ⟨hres, hcells⟩ := h.agree o m m' (hm.mono hV)
  refine ⟨hres, fun a ha => ?_⟩
  by_cases hc : a ∈ cells o
  · exact hcells hc
  · rw [h.frame o m a hc, h.frame o m' a hc]
    exact hm ha

/-- Whoever looks at other cells sees nothing. -/
theorem apart (h : Local step cells) (hV : ∀ a ∈ cells o, a ∉ V) : Set.EqOn (step o m).2 m V :=
  fun a ha => h.frame o m a fun hc => hV a hc ha

end Local

end Footprints
