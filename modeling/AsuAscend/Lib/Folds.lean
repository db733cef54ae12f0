/-
Invariant rules for loops written as folds.

A `for` loop over a list is `foldl` or `foldlM`, and what holds after it is a
property of the list consumed so far. Each rule takes the property of the empty
prefix and the step from a prefix to the next one; the step may use how the whole
list splits at that point.
-/
import Mathlib.Data.List.Basic

set_option autoImplicit false

namespace Folds

variable {α σ ε : Type*}

/-- The loop rule for a fold that cannot fail. -/
theorem foldl_prefix {f : σ → α → σ} (I : List α → σ → Prop) (l : List α) {s : σ} (h0 : I [] s)
    (hstep : ∀ pre x suf s, l = pre ++ x :: suf → I pre s → I (pre ++ [x]) (f s x)) :
    I l (l.foldl f s) := by
  have key : ∀ suf pre s, l = pre ++ suf → I pre s → I l (suf.foldl f s) := by
    intro suf
    induction suf with
    | nil => intro pre s hl hI; rw [hl, List.append_nil]; exact hI
    | cons x suf ih =>
        intro pre s hl hI
        exact ih (pre ++ [x]) (f s x) (by rw [hl]; simp) (hstep pre x suf s hl hI)
  exact key l [] s rfl h0

/-- The loop rule for a fold in `Except`: when every turn succeeds, so does the
loop. -/
theorem foldlM_prefix {f : σ → α → Except ε σ} (I : List α → σ → Prop) (l : List α) {s : σ}
    (h0 : I [] s)
    (hstep : ∀ pre x suf s, l = pre ++ x :: suf → I pre s →
      ∃ s', f s x = .ok s' ∧ I (pre ++ [x]) s') :
    ∃ s', l.foldlM f s = .ok s' ∧ I l s' := by
  have key : ∀ suf pre s, l = pre ++ suf → I pre s → ∃ s', suf.foldlM f s = .ok s' ∧ I l s' := by
    intro suf
    induction suf with
    | nil => intro pre s hl hI; exact ⟨s, rfl, by rw [hl, List.append_nil]; exact hI⟩
    | cons x suf ih =>
        intro pre s hl hI
        obtain ⟨s', hs', hI'⟩ := hstep pre x suf s hl hI
        obtain ⟨s'', hs'', hI''⟩ := ih (pre ++ [x]) s' (by rw [hl]; simp) hI'
        exact ⟨s'', by rw [List.foldlM_cons, hs']; exact hs'', hI''⟩
  exact key l [] s rfl h0

/-- Two steps that return have returned one after the other. -/
theorem ok_of_bind.{u, v} {ε : Type u} {σ β : Type v} {x : Except ε σ} {f : σ → Except ε β} {b : β}
    (h : (x >>= f) = .ok b) : ∃ a, x = .ok a ∧ f a = .ok b := by
  cases x with
  | error e => cases h
  | ok a => exact ⟨a, rfl, h⟩

/-- What every turn that succeeds keeps, a loop that succeeds keeps. -/
theorem foldlM_keeps {f : σ → α → Except ε σ} (I : σ → Prop) {l : List α}
    (hstep : ∀ s s' x, x ∈ l → I s → f s x = .ok s' → I s') {s s' : σ} (h0 : I s)
    (h : l.foldlM f s = .ok s') : I s' := by
  induction l generalizing s with
  | nil =>
      cases h
      exact h0
  | cons x l ih =>
      rw [List.foldlM_cons] at h
      obtain ⟨s'', hx, h⟩ := ok_of_bind h
      exact ih (fun s s' y hy => hstep s s' y (List.mem_cons_of_mem x hy))
        (hstep s s'' x List.mem_cons_self h0 hx) h

/-- Where a loop fails: the turns before it have succeeded. -/
theorem error_of_foldlM {f : σ → α → Except ε σ} {l : List α} {s : σ} {e : ε}
    (h : l.foldlM f s = .error e) :
    ∃ pre x suf s', l = pre ++ x :: suf ∧ pre.foldlM f s = .ok s' ∧ f s' x = .error e := by
  induction l generalizing s with
  | nil => cases h
  | cons x l ih =>
      rw [List.foldlM_cons] at h
      cases hx : f s x with
      | error e' =>
          rw [hx] at h
          cases h
          exact ⟨[], x, l, s, rfl, rfl, hx⟩
      | ok s1 =>
          rw [hx] at h
          obtain ⟨pre, y, suf, s', rfl, hpre, hy⟩ := ih h
          exact ⟨x :: pre, y, suf, s', rfl, by rw [List.foldlM_cons, hx]; exact hpre, hy⟩

/-- A loop that succeeds, cut before one of its turns. -/
theorem ok_of_foldlM_append {f : σ → α → Except ε σ} {l l' : List α} {s s' : σ}
    (h : (l ++ l').foldlM f s = .ok s') :
    ∃ s1, l.foldlM f s = .ok s1 ∧ l'.foldlM f s1 = .ok s' := by
  rw [List.foldlM_append] at h
  exact ok_of_bind h

/-- Loops whose turns agree on the elements of the list agree. -/
theorem foldlM_congr {f g : σ → α → Except ε σ} {l : List α} {s : σ}
    (h : ∀ s x, x ∈ l → f s x = g s x) : l.foldlM f s = l.foldlM g s := by
  induction l generalizing s with
  | nil => rfl
  | cons x l ih =>
      rw [List.foldlM_cons, List.foldlM_cons, h s x List.mem_cons_self]
      exact congrArg _ (funext fun s' => ih fun s y hy => h s y (List.mem_cons_of_mem x hy))

/-- A loop that follows another one turn by turn. -/
theorem foldlM_related {τ : Type*} {f : σ → α → Except ε σ} {g : τ → α → Except ε τ}
    {R : σ → τ → Prop} {l : List α}
    (hstep : ∀ s t x s', R s t → f s x = .ok s' → ∃ t', g t x = .ok t' ∧ R s' t') {s : σ} {t : τ}
    (h0 : R s t) {s' : σ} (h : l.foldlM f s = .ok s') : ∃ t', l.foldlM g t = .ok t' ∧ R s' t' := by
  induction l generalizing s t with
  | nil =>
      cases h
      exact ⟨t, rfl, h0⟩
  | cons x l ih =>
      rw [List.foldlM_cons] at h
      obtain ⟨s1, hx, h⟩ := ok_of_bind h
      obtain ⟨t1, hy, h1⟩ := hstep s t x s1 h0 hx
      rw [List.foldlM_cons, hy]
      exact ih h1 h

/-- The loop rule over `enumerate(l)`, for a fold that cannot fail. -/
theorem foldl_zipIdx {f : σ → α × ℕ → σ} (I : List α → σ → Prop) (l : List α) {s : σ}
    (h0 : I [] s)
    (hstep : ∀ pre x suf s, l = pre ++ x :: suf → I pre s → I (pre ++ [x]) (f s (x, pre.length))) :
    I l (l.zipIdx.foldl f s) := by
  have key : ∀ suf pre s, l = pre ++ suf → I pre s → I l ((suf.zipIdx pre.length).foldl f s) := by
    intro suf
    induction suf with
    | nil => intro pre s hl hI; rw [hl, List.append_nil]; exact hI
    | cons x suf ih =>
        intro pre s hl hI
        have h := ih (pre ++ [x]) (f s (x, pre.length)) (by rw [hl]; simp)
          (hstep pre x suf s hl hI)
        rw [List.length_append, List.length_singleton] at h
        exact h
  exact key l [] s rfl h0

/-- The loop rule over `enumerate(l)`, for a fold in `Except`. -/
theorem foldlM_zipIdx {f : σ → α × ℕ → Except ε σ} (I : List α → σ → Prop) (l : List α) {s : σ}
    (h0 : I [] s)
    (hstep : ∀ pre x suf s, l = pre ++ x :: suf → I pre s →
      ∃ s', f s (x, pre.length) = .ok s' ∧ I (pre ++ [x]) s') :
    ∃ s', l.zipIdx.foldlM f s = .ok s' ∧ I l s' := by
  have key : ∀ suf pre s, l = pre ++ suf → I pre s →
      ∃ s', (suf.zipIdx pre.length).foldlM f s = .ok s' ∧ I l s' := by
    intro suf
    induction suf with
    | nil => intro pre s hl hI; exact ⟨s, rfl, by rw [hl, List.append_nil]; exact hI⟩
    | cons x suf ih =>
        intro pre s hl hI
        obtain ⟨s', hs', hI'⟩ := hstep pre x suf s hl hI
        obtain ⟨s'', hs'', hI''⟩ := ih (pre ++ [x]) s' (by rw [hl]; simp) hI'
        rw [List.length_append, List.length_singleton] at hs''
        exact ⟨s'', by rw [List.zipIdx_cons, List.foldlM_cons, hs']; exact hs'', hI''⟩
  exact key l [] s rfl h0

/-- A traversal in which every element succeeds. -/
theorem mapM_ok {β : Type*} {f : α → Except ε β} {g : α → β} {l : List α}
    (h : ∀ x ∈ l, f x = .ok (g x)) : l.mapM f = .ok (l.map g) := by
  induction l with
  | nil => rfl
  | cons x l ih =>
      rw [List.mapM_cons, h x List.mem_cons_self, ih fun y hy => h y (List.mem_cons_of_mem _ hy)]
      rfl

end Folds
