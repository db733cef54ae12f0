/-
Running code that mutates a state and can raise.

`EStateM ε σ` keeps the state that an exception leaves behind, which is what a
caller that catches it sees. The lemmas run such code step by step (`bind_ok`,
`bind_error`), and `Moves R` says what every run does to the state, whether it
returns or raises.

## After an exception

A program that catches an exception goes on with whatever the code has written by then, so rules
that speak of returning runs alone are not enough. `after` is the state that a run leaves in either
case, and `Moves` composes: a relation that is reflexive and transitive is kept by a sequence if
each part keeps it.
-/
import Mathlib.Data.List.Forall2

set_option autoImplicit false

namespace StateExcept

variable {ε σ α β : Type}

/-! ## One step at a time -/

section Run

variable {f : EStateM ε σ α} {g : α → EStateM ε σ β} {s s' : σ} {a : α} {e : ε}

theorem bind_ok (h : f s = .ok a s') : (f >>= g) s = g a s' := by
  show EStateM.bind f g s = _
  unfold EStateM.bind
  rw [h]

/-- Two steps, the first of which raises: the second is not made. -/
theorem bind_error (h : f s = .error e s') : (f >>= g) s = .error e s' := by
  show EStateM.bind f g s = _
  unfold EStateM.bind
  rw [h]

@[simp] theorem pure_run (a : α) (s : σ) : (pure a : EStateM ε σ α) s = .ok a s := rfl

@[simp] theorem get_bind (g : σ → EStateM ε σ β) (s : σ) : ((get : EStateM ε σ σ) >>= g) s = g s s :=
  rfl

@[simp] theorem modify_run (f : σ → σ) (s : σ) : (modify f : EStateM ε σ PUnit) s = .ok ⟨⟩ (f s) :=
  rfl

@[simp] theorem modify_bind (f : σ → σ) (g : PUnit → EStateM ε σ β) (s : σ) :
    ((modify f : EStateM ε σ PUnit) >>= g) s = g ⟨⟩ (f s) := rfl

@[simp] theorem throw_run (e : ε) (s : σ) : (throw e : EStateM ε σ α) s = .error e s := rfl

/-- A run that returns, taken apart. -/
theorem bind_eq_ok {b : β} {s'' : σ} (h : (f >>= g) s = .ok b s'') :
    ∃ a s', f s = .ok a s' ∧ g a s' = .ok b s'' := by
  cases hf : f s with
  | ok a s' =>
      rw [bind_ok hf] at h
      exact ⟨a, s', rfl, h⟩
  | error e s' =>
      rw [bind_error hf] at h
      cases h

/-- A traversal that returns has returned at its first element and on the others. -/
theorem mapM_cons_eq_ok {f : α → EStateM ε σ β} {x : α} {l : List α} {bs : List β} {s'' : σ}
    (h : (x :: l).mapM f s = .ok bs s'') :
    ∃ b s' bs', f x s = .ok b s' ∧ l.mapM f s' = .ok bs' s'' ∧ bs = b :: bs' := by
  rw [List.mapM_cons] at h
  obtain ⟨b, s', hx, h⟩ := bind_eq_ok h
  obtain ⟨bs', s1, hl, h⟩ := bind_eq_ok h
  cases h
  exact ⟨b, s', bs', hx, hl, rfl⟩

/-- A traversal up to the element that raises. -/
theorem mapM_append_error {f : α → EStateM ε σ β} {pre post : List α} {x : α} {bs : List β}
    (hpre : pre.mapM f s = .ok bs s') {s'' : σ} (hx : f x s' = .error e s'') :
    (pre ++ x :: post).mapM f s = .error e s'' := by
  rw [List.mapM_append, bind_ok hpre, List.mapM_cons]
  exact bind_error (bind_error hx)

theorem mapM_append_ok {f : α → EStateM ε σ β} {pre : List α} {x : α} {bs : List β}
    (hpre : pre.mapM f s = .ok bs s') {b : β} {s'' : σ} (hx : f x s' = .ok b s'') :
    (pre ++ [x]).mapM f s = .ok (bs ++ [b]) s'' := by
  have hone : [x].mapM f s' = .ok [b] s'' := by
    rw [List.mapM_cons, bind_ok hx]
    rfl
  rw [List.mapM_append, bind_ok hpre, bind_ok hone]
  rfl

/-- The loop rule for a traversal in which every turn returns. -/
theorem mapM_ok {f : α → EStateM ε σ β} (I : List α → List β → σ → Prop) (l : List α) {s : σ}
    (h0 : I [] [] s)
    (hstep : ∀ pre x suf bs s, l = pre ++ x :: suf → I pre bs s →
      ∃ b s', f x s = .ok b s' ∧ I (pre ++ [x]) (bs ++ [b]) s') :
    ∃ bs s', l.mapM f s = .ok bs s' ∧ I l bs s' := by
  have key : ∀ suf pre bs s, l = pre ++ suf → I pre bs s →
      ∃ bs' s', suf.mapM f s = .ok bs' s' ∧ I l (bs ++ bs') s' := by
    intro suf
    induction suf with
    | nil =>
        intro pre bs s hl hI
        exact ⟨[], s, rfl, by rw [hl, List.append_nil, List.append_nil]; exact hI⟩
    | cons x suf ih =>
        intro pre bs s hl hI
        obtain ⟨b, s1, hx, h1⟩ := hstep pre x suf bs s hl hI
        obtain ⟨bs', s2, hsuf, h2⟩ := ih (pre ++ [x]) (bs ++ [b]) s1 (by rw [hl]; simp) h1
        refine ⟨b :: bs', s2, ?_, by rw [← List.append_cons] at h2; exact h2⟩
        rw [List.mapM_cons, bind_ok hx, bind_ok hsuf]
        rfl
  exact key l [] [] s rfl h0

end Run

/-! ## What every run does to the state -/

/-- The state after a run, returned or raised. -/
def after : EStateM.Result ε σ α → σ
  | .ok _ s => s
  | .error _ s => s

/-- Every run of `f` moves the state within `R`. -/
def Moves (R : σ → σ → Prop) (f : EStateM ε σ α) : Prop := ∀ s, R s (after (f s))

variable {R : σ → σ → Prop}

/-- A step that leaves the state alone makes every reflexive move. -/
theorem Moves.of_state_eq (hrefl : ∀ s, R s s) {f : EStateM ε σ α} (h : ∀ s, after (f s) = s) :
    Moves R f := fun s => by rw [h]; exact hrefl s

/-- A change of the state, as a move. -/
theorem Moves.modify {f : σ → σ} (h : ∀ s, R s (f s)) :
    Moves R (modify f : EStateM ε σ PUnit) := h

/-- Two steps in sequence, for a transitive move. -/
theorem Moves.bind (htrans : ∀ a b c, R a b → R b c → R a c) {f : EStateM ε σ α}
    {g : α → EStateM ε σ β} (hf : Moves R f) (hg : ∀ a, Moves R (g a)) : Moves R (f >>= g) := by
  intro s
  have hfs := hf s
  cases h : f s with
  | ok a s' =>
      rw [bind_ok h]
      rw [h] at hfs
      exact htrans _ _ _ hfs (hg a s')
  | error e s' =>
      rw [bind_error h]
      rw [h] at hfs
      exact hfs

theorem Moves.mapM (hrefl : ∀ s, R s s) (htrans : ∀ a b c, R a b → R b c → R a c)
    {f : α → EStateM ε σ β} (hf : ∀ a, Moves R (f a)) (l : List α) : Moves R (l.mapM f) := by
  induction l with
  | nil => intro s; exact hrefl s
  | cons x l ih =>
      rw [List.mapM_cons]
      refine Moves.bind htrans (hf x) fun b => Moves.bind htrans ih fun bs => ?_
      exact Moves.of_state_eq hrefl fun _ => rfl

/-! ## Without a state -/

theorem except_bind_eq_ok {x : Except ε α} {f : α → Except ε β} {b : β}
    (h : (x >>= f) = .ok b) : ∃ a, x = .ok a ∧ f a = .ok b := by
  cases x with
  | ok a => exact ⟨a, rfl, h⟩
  | error e => cases h

/-- A traversal that returns has returned for every element. -/
theorem except_mapM_eq_ok {f : α → Except ε β} {l : List α} {bs : List β}
    (h : l.mapM f = .ok bs) : List.Forall₂ (fun a b => f a = .ok b) l bs := by
  induction l generalizing bs with
  | nil =>
      cases h
      exact .nil
  | cons x l ih =>
      rw [List.mapM_cons] at h
      obtain ⟨b, hx, h⟩ := except_bind_eq_ok h
      obtain ⟨bs', hl, h⟩ := except_bind_eq_ok h
      cases h
      exact .cons hx (ih hl)

end StateExcept
