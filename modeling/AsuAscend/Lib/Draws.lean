/-
Code that draws from a source, can raise and need not end.

`Gen ε ρ` runs on a state of the source; a run raises, or returns with the state it
leaves, or has no result when the fuel of an unbounded loop runs out. `Yields P E`
says that every run which ends returns something with `P` or raises something with
`E`; `Settles` that every run ends.

## Partial correctness and termination apart

A loop that draws until it likes what it has drawn need not end on every source. `Yields` leaves
such sources open: what is proved with it holds of every run that ends. `Settles` is for code whose
loops are bounded. `Mirrors` runs two programs on the same draws, the second of which returns
whenever the first one does.
-/
import Mathlib.Data.List.Basic

set_option autoImplicit false

namespace Draws

abbrev Gen (ε ρ : Type) := StateT ρ (ExceptT ε Option)

variable {ε ρ α β : Type}

/-- No result within the fuel. -/
def noEnd : Gen ε ρ α := fun _ => (none : Option (Except ε (α × ρ)))

/-- The run from `s`: what it ends in, if it does. -/
def runFrom (g : Gen ε ρ α) (s : ρ) : Option (Except ε (α × ρ)) := g s

/-- A call of a method of the source. -/
def draw (f : ρ → α × ρ) : Gen ε ρ α := fun s => pure (f s)

def attempt : Except ε α → Gen ε ρ α
  | .ok a => pure a
  | .error e => throw e

def Yields (P : α → Prop) (E : ε → Prop) (g : Gen ε ρ α) : Prop :=
  ∀ s r, runFrom g s = some r → match r with
    | .ok (a, _) => P a
    | .error e => E e

def Settles (g : Gen ε ρ α) : Prop := ∀ s, runFrom g s ≠ none

/-! ## One operation -/

/-- A generator that draws nothing gives its value and leaves the state. -/
theorem runFrom_pure (a : α) (s : ρ) : runFrom (pure a : Gen ε ρ α) s = some (.ok (a, s)) := rfl

theorem runFrom_throw (e : ε) (s : ρ) : runFrom (throw e : Gen ε ρ α) s = some (.error e) := rfl

theorem runFrom_draw (f : ρ → α × ρ) (s : ρ) :
    runFrom (draw f : Gen ε ρ α) s = some (.ok (f s)) := rfl

/-- The second part runs from where the first one ends. -/
theorem runFrom_bind (g : Gen ε ρ α) (f : α → Gen ε ρ β) (s : ρ) :
    runFrom (g >>= f) s = (runFrom g s).bind fun
      | .ok (a, s') => runFrom (f a) s'
      | .error e => some (.error e) := by
  show (ExceptT.bindCont (fun p => f p.1 p.2) =<< (g s : Option _)) = _
  unfold runFrom
  cases (g s : Option (Except ε (α × ρ))) with
  | none => rfl
  | some r => cases r <;> rfl

section Rules

variable {P : α → Prop} {Q : β → Prop} {E : ε → Prop}

theorem yields_pure {a : α} (h : P a) : Yields P E (pure a : Gen ε ρ α) := by
  intro s r hrun
  rw [runFrom_pure] at hrun
  cases hrun
  exact h

theorem yields_throw {e : ε} (h : E e) : Yields P E (throw e : Gen ε ρ α) := by
  intro s r hrun
  rw [runFrom_throw] at hrun
  cases hrun
  exact h

/-- A run without an end meets every postcondition. -/
theorem yields_noEnd : Yields P E (noEnd : Gen ε ρ α) := by
  intro s r hrun
  cases hrun

/-- A draw, whatever the state of the source. -/
theorem yields_draw {f : ρ → α × ρ} (h : ∀ s, P (f s).1) : Yields P E (draw f : Gen ε ρ α) := by
  intro s r hrun
  rw [runFrom_draw] at hrun
  cases hrun
  exact h s

/-- Seeding the source has no result to speak of. -/
theorem yields_set {P : PUnit → Prop} (h : P ⟨⟩) (s : ρ) : Yields P E (set s : Gen ε ρ PUnit) := by
  intro s' r hrun
  cases hrun
  exact h

theorem yields_attempt {x : Except ε α} (hok : ∀ a, x = .ok a → P a)
    (herror : ∀ e, x = .error e → E e) : Yields P E (attempt x : Gen ε ρ α) := by
  cases x with
  | ok a => exact yields_pure (hok a rfl)
  | error e => exact yields_throw (herror e rfl)

theorem Yields.bind {g : Gen ε ρ α} {f : α → Gen ε ρ β} (hg : Yields P E g)
    (hf : ∀ a, P a → Yields Q E (f a)) : Yields Q E (g >>= f) := by
  intro s r hrun
  rw [runFrom_bind] at hrun
  cases hfirst : runFrom g s with
  | none =>
      rw [hfirst] at hrun
      cases hrun
  | some first =>
      have hP := hg s first hfirst
      rw [hfirst] at hrun
      cases first with
      | ok p => exact hf p.1 hP p.2 r hrun
      | error e =>
          cases hrun
          exact hP

theorem Yields.mono {P' : α → Prop} {g : Gen ε ρ α} (h : Yields P E g) (hP : ∀ a, P a → P' a) :
    Yields P' E g := by
  intro s r hrun
  have hr := h s r hrun
  cases r with
  | ok p => exact hP p.1 hr
  | error e => exact hr

/-- The loop rule for a fold. -/
theorem yields_foldlM {γ : Type} {f : α → γ → Gen ε ρ α} (I : List γ → α → Prop) (l : List γ) {a : α}
    (h0 : I [] a) (hstep : ∀ pre x suf a, l = pre ++ x :: suf → I pre a →
      Yields (I (pre ++ [x])) E (f a x)) : Yields (I l) E (l.foldlM f a) := by
  have key : ∀ suf pre a, l = pre ++ suf → I pre a → Yields (I l) E (suf.foldlM f a) := by
    intro suf
    induction suf with
    | nil =>
        intro pre a hl hI
        rw [List.append_nil] at hl
        exact yields_pure (hl ▸ hI)
    | cons x suf ih =>
        intro pre a hl hI
        rw [List.foldlM_cons]
        refine Yields.bind (hstep pre x suf a hl hI) fun a' ha' => ?_
        exact ih (pre ++ [x]) a' (by rw [hl, List.append_cons]) ha'
  exact key l [] a rfl h0

/-- The loop rule for a comprehension. -/
theorem yields_mapM {γ : Type} {f : γ → Gen ε ρ α} (l : List γ) (h : ∀ x ∈ l, Yields P E (f x)) :
    Yields (fun out => out.length = l.length ∧ ∀ a ∈ out, P a) E (l.mapM f) := by
  induction l with
  | nil =>
      rw [List.mapM_nil]
      exact yields_pure ⟨rfl, fun a ha => absurd ha List.not_mem_nil⟩
  | cons x l ih =>
      rw [List.mapM_cons]
      refine Yields.bind (h x List.mem_cons_self) fun a ha => ?_
      refine Yields.bind (ih fun y hy => h y (List.mem_cons_of_mem x hy)) fun out hout => ?_
      refine yields_pure ⟨?_, fun b hb => ?_⟩
      · rw [List.length_cons, List.length_cons, hout.1]
      · rcases List.mem_cons.mp hb with rfl | hb
        · exact ha
        · exact hout.2 b hb

end Rules

/-! ## Runs that end -/

theorem settles_pure (a : α) : Settles (pure a : Gen ε ρ α) := fun _ => Option.some_ne_none _

theorem settles_throw (e : ε) : Settles (throw e : Gen ε ρ α) := fun _ => Option.some_ne_none _

theorem settles_draw (f : ρ → α × ρ) : Settles (draw f : Gen ε ρ α) :=
  fun _ => Option.some_ne_none _

theorem settles_set (s : ρ) : Settles (set s : Gen ε ρ PUnit) := fun _ => Option.some_ne_none _

theorem settles_attempt (x : Except ε α) : Settles (attempt x : Gen ε ρ α) := by
  cases x with
  | ok a => exact settles_pure a
  | error e => exact settles_throw e

/-- The second part has to end only from what the first one yields. -/
theorem Settles.bind_of_yields {P : α → Prop} {E : ε → Prop} {g : Gen ε ρ α} {f : α → Gen ε ρ β}
    (hg : Settles g) (hP : Yields P E g) (hf : ∀ a, P a → Settles (f a)) : Settles (g >>= f) := by
  intro s
  rw [runFrom_bind]
  cases hfirst : runFrom g s with
  | none => exact absurd hfirst (hg s)
  | some first =>
      have hr := hP s first hfirst
      cases first with
      | ok p => exact hf p.1 hr p.2
      | error e => exact Option.some_ne_none _

theorem Settles.bind {g : Gen ε ρ α} {f : α → Gen ε ρ β} (hg : Settles g)
    (hf : ∀ a, Settles (f a)) : Settles (g >>= f) := by
  have htrue : Yields (fun _ => True) (fun _ => True) g := fun s r _ => by
    cases r <;> exact trivial
  exact hg.bind_of_yields htrue fun a _ => hf a

/-- A traversal comes to an end if each of its turns does. -/
theorem settles_mapM {γ : Type} {f : γ → Gen ε ρ α} (h : ∀ x, Settles (f x)) (l : List γ) :
    Settles (l.mapM f) := by
  induction l with
  | nil =>
      rw [List.mapM_nil]
      exact settles_pure []
  | cons x l ih =>
      rw [List.mapM_cons]
      exact (h x).bind fun a => ih.bind fun out => settles_pure _

theorem settles_foldlM {γ : Type} {f : α → γ → Gen ε ρ α} (h : ∀ a x, Settles (f a x)) (l : List γ)
    (a : α) : Settles (l.foldlM f a) := by
  induction l generalizing a with
  | nil => exact settles_pure a
  | cons x l ih =>
      rw [List.foldlM_cons]
      exact (h a x).bind fun a' => ih a'

/-! ## Two runs on the same draws -/

/-- Where `g` returns, `g'` returns after the same draws, and what they return is related. -/
def Mirrors (R : α → β → Prop) (g : Gen ε ρ α) (g' : Gen ε ρ β) : Prop :=
  ∀ s a t, runFrom g s = some (.ok (a, t)) → ∃ b, runFrom g' s = some (.ok (b, t)) ∧ R a b

section Mirrors

variable {γ δ : Type} {R : α → β → Prop} {S : γ → δ → Prop}

theorem mirrors_pure {a : α} {b : β} (h : R a b) :
    Mirrors R (pure a : Gen ε ρ α) (pure b : Gen ε ρ β) := by
  intro s a' t hrun
  rw [runFrom_pure] at hrun
  cases hrun
  exact ⟨b, rfl, h⟩

theorem mirrors_refl {R : α → α → Prop} (h : ∀ a, R a a) (g : Gen ε ρ α) : Mirrors R g g :=
  fun _ a _ hrun => ⟨a, hrun, h a⟩

/-- Two computations without draws that fail together, or have related values. -/
theorem mirrors_attempt {x : Except ε α} {x' : Except ε β}
    (h : ∀ a, x = .ok a → ∃ b, x' = .ok b ∧ R a b) :
    Mirrors R (attempt x : Gen ε ρ α) (attempt x' : Gen ε ρ β) := by
  cases x with
  | error e =>
      intro s a t hrun
      cases hrun
  | ok a =>
      obtain ⟨b, rfl, hab⟩ := h a rfl
      exact mirrors_pure hab

/-- In sequence: they draw alike as long as their values are related. -/
theorem Mirrors.bind {g : Gen ε ρ α} {g' : Gen ε ρ β} {f : α → Gen ε ρ γ} {f' : β → Gen ε ρ δ}
    (hg : Mirrors R g g') (hf : ∀ a b, R a b → Mirrors S (f a) (f' b)) :
    Mirrors S (g >>= f) (g' >>= f') := by
  intro s c t hrun
  rw [runFrom_bind] at hrun
  cases hfirst : runFrom g s with
  | none =>
      rw [hfirst] at hrun
      cases hrun
  | some first =>
      rw [hfirst] at hrun
      cases first with
      | error e => cases hrun
      | ok p =>
          obtain ⟨b, hb, hab⟩ := hg s p.1 p.2 hfirst
          obtain ⟨d, hd, hcd⟩ := hf p.1 b hab p.2 c t hrun
          refine ⟨d, ?_, hcd⟩
          rw [runFrom_bind, hb]
          exact hd

/-- What each of the two yields holds beside the relation. -/
theorem Mirrors.and_yields {g : Gen ε ρ α} {g' : Gen ε ρ β} {P : α → Prop} {Q : β → Prop}
    {E E' : ε → Prop} (h : Mirrors R g g') (hP : Yields P E g) (hQ : Yields Q E' g') :
    Mirrors (fun a b => R a b ∧ P a ∧ Q b) g g' := by
  intro s a t hrun
  obtain ⟨b, hb, hab⟩ := h s a t hrun
  exact ⟨b, hb, hab, hP s _ hrun, hQ s _ hb⟩

/-- The loop rule for two folds over one list. -/
theorem mirrors_foldlM {f : α → γ → Gen ε ρ α} {f' : β → γ → Gen ε ρ β}
    (hstep : ∀ x a b, R a b → Mirrors R (f a x) (f' b x)) (l : List γ) {a : α} {b : β} (h : R a b) :
    Mirrors R (l.foldlM f a) (l.foldlM f' b) := by
  induction l generalizing a b with
  | nil => exact mirrors_pure h
  | cons x l ih =>
      rw [List.foldlM_cons, List.foldlM_cons]
      exact (hstep x a b h).bind fun a' b' h' => ih h'

end Mirrors

end Draws
