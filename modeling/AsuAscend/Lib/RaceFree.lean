/-
Race-free phases.

When every thread writes only cells it owns, and reads only those and cells that
nobody owns, it computes what it would compute alone. `Solo` is the sequential
predicate of a thread on its own, with the two footprints; `correct_determined_next`
and `correct_determined_last` say that a phase whose threads each leave in their
own cells what the memory `m1` holds there ends in `m1`, whatever the schedule.

`Written` is the loop invariant that goes with them: the cells touched by the
items done so far hold their final value, the others what they held before.

## Footprints, not logs

The condition is on the text of a thread: which cells it writes and reads when it runs alone. That
the others do not disturb it follows, since they write none of the cells that it looks at; no
invariant over their steps is stated by the user of these rules. Cells that nobody owns may be read
by all.

A phase in which two threads write the same cell, even the same value, is not of this kind.
-/
import AsuAscend.Lib.RelyGuarantee
import AsuAscend.Lib.WorkSplit

set_option autoImplicit false

open Function (update)

namespace BarrierThreads

open Prog Contract WorkSplit

variable {τ A V R S G : Type} [DecidableEq τ] [DecidableEq A]

/-! ## A thread on its own -/

/-- A thread on its own: it runs without fault, reads only `rd`, writes only `wr`,
and comes to a barrier or to its end with `E`. -/
def Solo (dom rd wr : A → Prop) (E : Prog A V R → Mem A V → Prop) : Prog A V R → Mem A V → Prop
  | .ret r, m => E (.ret r) m
  | .sync k, m => E (.sync k) m
  | .load a k, m => dom a ∧ rd a ∧ ∃ v, m a = some v ∧ Solo dom rd wr E (k v) m
  | .store a v k, m => dom a ∧ wr a ∧ Solo dom rd wr E k (update m a (some v))
  | .cas a e d k, m => dom a ∧ wr a ∧ ∃ v, m a = some v ∧
      (v = e → Solo dom rd wr E (k v) (update m a (some d))) ∧
      (v ≠ e → Solo dom rd wr E (k v) m)

section Solo

variable {dom rd wr : A → Prop}

omit [DecidableEq τ] in
theorem solo_mono {E E' : Prog A V R → Mem A V → Prop} {p : Prog A V R} {m : Mem A V}
    (h : Solo dom rd wr E p m) (hE : ∀ e m, E e m → E' e m) : Solo dom rd wr E' p m := by
  induction p generalizing m with
  | ret r => exact hE _ _ h
  | sync k _ => exact hE _ _ h
  | load a k ih =>
      obtain ⟨hd, hr, v, hv, hk⟩ := h
      exact ⟨hd, hr, v, hv, ih v hk⟩
  | store a v k ih => exact ⟨h.1, h.2.1, ih h.2.2⟩
  | cas a e d k ih =>
      obtain ⟨hd, hw, v, hv, hok, hfail⟩ := h
      exact ⟨hd, hw, v, hv, fun hve => ih v (hok hve), fun hve => ih v (hfail hve)⟩

theorem solo_bind {p : Prog A V R} {f : R → Prog A V S} {E : Prog A V S → Mem A V → Prop}
    {m : Mem A V} (h : Solo dom rd wr (fun e m => ∃ r, e = .ret r ∧ Solo dom rd wr E (f r) m) p m) :
    Solo dom rd wr E (p.bind f) m := by
  induction p generalizing m with
  | ret r =>
      obtain ⟨r', hr', hs⟩ := h
      rw [Prog.bind_ret, Prog.ret.inj hr']
      exact hs
  | sync k _ =>
      obtain ⟨r', hr', -⟩ := h
      cases hr'
  | load a k ih =>
      obtain ⟨hd, hr, v, hv, hk⟩ := h
      exact ⟨hd, hr, v, hv, ih v hk⟩
  | store a v k ih => exact ⟨h.1, h.2.1, ih h.2.2⟩
  | cas a e d k ih =>
      obtain ⟨hd, hw, v, hv, hok, hfail⟩ := h
      exact ⟨hd, hw, v, hv, fun hve => ih v (hok hve), fun hve => ih v (hfail hve)⟩

/-- A load of a cell that the thread may read. -/
theorem solo_read {a : A} {v : V} {f : V → Prog A V R} {E : Prog A V R → Mem A V → Prop}
    {m : Mem A V} (hd : dom a) (hr : rd a) (hv : m a = some v) (hk : Solo dom rd wr E (f v) m) :
    Solo dom rd wr E (Prog.read a >>= f) m := ⟨hd, hr, v, hv, hk⟩

/-- A store into a cell of its own. -/
theorem solo_write {a : A} {v : V} {f : Unit → Prog A V R} {E : Prog A V R → Mem A V → Prop}
    {m : Mem A V} (hd : dom a) (hw : wr a) (hk : Solo dom rd wr E (f ()) (update m a (some v))) :
    Solo dom rd wr E (Prog.write a v >>= f) m := ⟨hd, hw, hk⟩

/-- A loop that carries a value: one assertion for each prefix of the list. -/
theorem solo_foldEach {α : Type} (I : List α → R → Mem A V → Prop) (xs : List α)
    {body : R → α → Prog A V R} {r : R} {m : Mem A V} (h0 : I [] r m)
    (hbody : ∀ pre x suf r m, xs = pre ++ x :: suf → I pre r m →
      Solo dom rd wr (fun e m => ∃ r', e = .ret r' ∧ I (pre ++ [x]) r' m) (body r x) m) :
    Solo dom rd wr (fun e m => ∃ r', e = .ret r' ∧ I xs r' m) (foldEach xs r body) m := by
  have key : ∀ suf pre r m, xs = pre ++ suf → I pre r m →
      Solo dom rd wr (fun e m => ∃ r', e = .ret r' ∧ I xs r' m) (foldEach suf r body) m := by
    intro suf
    induction suf with
    | nil =>
        intro pre r m hpre hI
        rw [List.append_nil] at hpre
        subst hpre
        exact ⟨r, rfl, hI⟩
    | cons x suf ih =>
        intro pre r m hpre hI
        refine solo_bind (solo_mono (hbody pre x suf r m hpre hI) ?_)
        rintro e m' ⟨r', rfl, hI'⟩
        exact ⟨r', rfl, ih (pre ++ [x]) r' m' (by rw [hpre]; simp) hI'⟩
  exact key xs [] r m rfl h0

/-- The rule for a loop: an invariant that each turn takes on by one element. -/
theorem solo_forEach {α : Type} (I : List α → Mem A V → Prop) (xs : List α)
    {body : α → Prog A V Unit} {m : Mem A V} (h0 : I [] m)
    (hbody : ∀ pre x suf m, xs = pre ++ x :: suf → I pre m →
      Solo dom rd wr (fun e m => ∃ r, e = .ret r ∧ I (pre ++ [x]) m) (body x) m) :
    Solo dom rd wr (fun e m => ∃ r, e = .ret r ∧ I xs m) (forEach xs body) m :=
  solo_foldEach (fun pre _ => I pre) xs h0 fun pre x suf _ m hpre hI => hbody pre x suf m hpre hI

/-- A loop over the indices from `b` up to `e`: one assertion for each index. -/
theorem solo_span (I : ℕ → R → Mem A V → Prop) {b e : ℕ} {body : R → ℕ → Prog A V R} {r : R}
    {m : Mem A V} (h0 : I b r m)
    (hbody : ∀ p r m, b ≤ p → p < e → I p r m →
      Solo dom rd wr (fun e m => ∃ r', e = .ret r' ∧ I (p + 1) r' m) (body r p) m) :
    Solo dom rd wr (fun o m => ∃ r', o = .ret r' ∧ I (b + (e - b)) r' m)
      (foldEach (span b e) r body) m := by
  have hloop : Solo dom rd wr
      (fun o m => ∃ r', o = .ret r' ∧ I (b + (span b e).length) r' m)
      (foldEach (span b e) r body) m := by
    apply solo_foldEach (fun pre r m => I (b + pre.length) r m) (span b e) h0
    intro pre x suf r m hsplit hI
    obtain ⟨rfl, hbx, hxe⟩ := eq_of_span_split hsplit
    have hlen : b + (span b x).length = x := by
      unfold span; rw [List.length_range', Nat.add_sub_cancel' hbx]
    rw [List.length_append, List.length_singleton, ← Nat.add_assoc, hlen]
    rw [hlen] at hI
    exact hbody x r m hbx hxe hI
  unfold span at hloop ⊢
  rw [List.length_range'] at hloop
  exact hloop

/-- The cells touched by the items of `pre` hold their final value, the others what
they held before. -/
def Written {α : Type} (touch : α → A → Prop) (m0 m1 : Mem A V) (pre : List α) (m : Mem A V) :
    Prop :=
  (∀ x ∈ pre, ∀ a, touch x a → m a = m1 a) ∧ ∀ a, (∀ x ∈ pre, ¬ touch x a) → m a = m0 a

omit [DecidableEq A] in
theorem written_nil {α : Type} (touch : α → A → Prop) (m0 m1 : Mem A V) :
    Written touch m0 m1 [] m0 :=
  ⟨fun _ hx => absurd hx List.not_mem_nil, fun _ _ => rfl⟩

omit [DecidableEq A] in
/-- One more item: its cells become final, no other cell changes. -/
theorem Written.concat {α : Type} {touch : α → A → Prop} {m0 m1 m m' : Mem A V} {pre : List α}
    {x : α} (h : Written touch m0 m1 pre m) (hx : ∀ a, touch x a → m' a = m1 a)
    (hrest : ∀ a, ¬ touch x a → m' a = m a) : Written touch m0 m1 (pre ++ [x]) m' := by
  refine ⟨fun y hy a ha => ?_, fun a ha => ?_⟩
  · by_cases hxa : touch x a
    · exact hx a hxa
    · rcases List.mem_append.mp hy with hy | hy
      · rw [hrest a hxa]; exact h.1 y hy a ha
      · rw [List.mem_singleton.mp hy] at ha; exact absurd ha hxa
  · rw [hrest a (ha x (by simp))]
    exact h.2 a fun y hy => ha y (List.mem_append_left _ hy)

/-- A loop whose items write their own cells. -/
theorem solo_forEach_written {α : Type} (touch : α → A → Prop) {m0 : Mem A V} (m1 : Mem A V)
    (xs : List α) {body : α → Prog A V Unit}
    (hbody : ∀ pre x suf m, xs = pre ++ x :: suf → Written touch m0 m1 pre m →
      Solo dom rd wr (fun e m' => ∃ r, e = .ret r ∧ (∀ a, touch x a → m' a = m1 a) ∧
        ∀ a, ¬ touch x a → m' a = m a) (body x) m) :
    Solo dom rd wr (fun e m => ∃ r, e = .ret r ∧ Written touch m0 m1 xs m) (forEach xs body) m0 := by
  apply solo_forEach (Written touch m0 m1) xs (written_nil touch m0 m1)
  intro pre x suf m hsplit hw
  refine solo_mono (hbody pre x suf m hsplit hw) ?_
  rintro e m' ⟨r, he, hx, hrest⟩
  exact ⟨r, he, hw.concat hx hrest⟩

end Solo

/-! ## All threads -/

/-- The contract of a race-free phase that starts in `m0`: cells that nobody owns
keep their value, and nobody writes another thread's cells. -/
def ownership (own : τ → A → Prop) (m0 : Mem A V) : Contract τ Unit A V where
  inv := fun _ m => ∀ a, (∀ t, ¬ own t a) → m a = m0 a
  rely := fun t s s' => ∀ a, own t a → s'.2 a = s.2 a
  refl := fun _ _ _ _ => rfl
  trans := fun _ _ _ _ h h' a ha => (h' a ha).trans (h a ha)

section Ownership

variable {dom : A → Prop} {own : τ → A → Prop} {m0 : Mem A V}

omit [DecidableEq τ] in
/-- A write to an owned cell is an allowed access. -/
theorem ownership_move (hdisj : ∀ t u a, own t a → own u a → t = u) {t : τ} {m : Mem A V} {a : A}
    (v : Option V) (hi : (ownership own m0).inv () m) (ha : own t a) :
    (ownership own m0).Move t () m () (update m a v) := by
  refine ⟨fun b hb => ?_, fun u hu b hb => ?_⟩
  · have hne : b ≠ a := fun h => hb t (by rw [h]; exact ha)
    rw [Function.update_of_ne hne]
    exact hi b hb
  · have hne : b ≠ a := fun h => hu (hdisj u t a (by rw [← h]; exact hb) ha)
    exact Function.update_of_ne hne _ _

omit [DecidableEq τ] in
/-- Two memories that agree on some cells still do after the same write. -/
theorem update_agree {P : A → Prop} {m m' : Mem A V} (h : ∀ b, P b → m b = m' b) (a : A)
    (v : Option V) : ∀ b, P b → update m a v b = update m' a v b := by
  intro b hb
  by_cases hba : b = a
  · subst hba; rw [Function.update_self, Function.update_self]
  · rw [Function.update_of_ne hba, Function.update_of_ne hba]; exact h b hb

omit [DecidableEq τ] in
/-- A thread that keeps to its own cells computes what it computes alone: `ms` is
its memory alone, `m` the shared one. -/
theorem solo_safe (hdisj : ∀ t u a, own t a → own u a → t = u) {t : τ}
    {E : Prog A V R → Mem A V → Prop} {p : Prog A V R} {ms m : Mem A V}
    (h : Solo dom (fun a => own t a ∨ ∀ u, ¬ own u a) (own t) E p ms)
    (hms : (ownership own m0).inv () ms) (heq : ∀ a, own t a → m a = ms a) :
    (ownership own m0).Safe dom t (fun e _ m => ∃ ms, E e ms ∧ ∀ a, own t a → m a = ms a)
      p () m := by
  -- what the others do leaves the thread's own cells alone
  have henv : ∀ {m m' ms : Mem A V}, (∀ a, own t a → m a = ms a) →
      (ownership own m0).rely t ((), m) ((), m') → ∀ a, own t a → m' a = ms a :=
    fun heq hr a ha => (hr a ha).trans (heq a ha)
  induction p generalizing ms m with
  | ret r => exact fun _ m' hr _ => ⟨ms, h, henv heq hr⟩
  | sync k _ => exact fun _ m' hr _ => ⟨ms, h, henv heq hr⟩
  | load a k ih =>
      intro _ m' hr hi
      obtain ⟨hd, hrd, v, hv, hk⟩ := h
      refine ⟨hd, v, ?_, ih v hk hms (henv heq hr)⟩
      -- the cell is its own, or nobody's
      rcases hrd with ha | ha
      · rw [henv heq hr a ha, hv]
      · rw [hi a ha, ← hms a ha, hv]
  | store a v k ih =>
      intro _ m' hr hi
      obtain ⟨hd, ha, hk⟩ := h
      exact ⟨hd, (), ownership_move hdisj _ hi ha,
        ih hk (ownership_move hdisj _ hms ha).1 (update_agree (henv heq hr) a _)⟩
  | cas a e d k ih =>
      intro _ m' hr hi
      obtain ⟨hd, ha, v, hv, hok, hfail⟩ := h
      refine ⟨hd, v, by rw [henv heq hr a ha, hv], fun hve => ?_, fun hve => ?_⟩
      · exact ⟨(), ownership_move hdisj _ hi ha,
          ih v (hok hve) (ownership_move hdisj _ hms ha).1 (update_agree (henv heq hr) a _)⟩
      · exact ih v (hfail hve) hms (henv heq hr)

omit [DecidableEq τ] in
/-- Threads that keep to cells of their own, or to those that nobody owns, run under one
contract. -/
theorem running_raceFree (hdisj : ∀ t u a, own t a → own u a → t = u)
    {E : τ → Prog A V R → Mem A V → Prop} {progs : τ → Prog A V R}
    (h : ∀ t, Solo dom (fun a => own t a ∨ ∀ u, ¬ own u a) (own t) (E t) (progs t) m0) :
    (ownership own m0).Running dom
      (fun t e _ m => ∃ ms, E t e ms ∧ ∀ a, own t a → m a = ms a) progs m0 :=
  ⟨(), fun _ _ => rfl, fun t => solo_safe hdisj (h t) (fun _ _ => rfl) fun _ _ => rfl⟩

omit [DecidableEq τ] [DecidableEq A] in
/-- Owned cells and cells nobody owns make up the whole memory. -/
theorem memory_determined {m m1 : Mem A V} (hframe : ∀ a, (∀ t, ¬ own t a) → m1 a = m0 a)
    (hi : (ownership own m0).inv () m) (hown : ∀ t a, own t a → m a = m1 a) : m = m1 := by
  funext a
  by_cases ha : ∃ t, own t a
  · obtain ⟨t, ht⟩ := ha
    exact hown t a ht
  · have hno : ∀ t, ¬ own t a := fun t ht => ha ⟨t, ht⟩
    rw [hi a hno, hframe a hno]

omit [DecidableEq τ] in
/-- The threads of a race-free phase before a barrier. -/
theorem running_determined (own : τ → A → Prop) (hdisj : ∀ t u a, own t a → own u a → t = u)
    {p : τ → Prog A V R} (rest : τ → R → Prog A V S) (res : τ → R) (m1 : Mem A V)
    (h : ∀ t, Solo dom (fun a => own t a ∨ ∀ u, ¬ own u a) (own t)
      (fun e m => ∃ r, e = .ret r ∧ r = res t ∧ ∀ a, own t a → m a = m1 a) (p t) m0) :
    (ownership own m0).Running dom
      (fun t e _ m => ∃ k, e = .sync k ∧ k = rest t (res t) ∧ ∀ a, own t a → m a = m1 a)
      (fun t => (p t).bind fun r => .sync (rest t r)) m0 := by
  have hrun : (ownership own m0).Running dom
      (fun t e _ m => ∃ ms : Mem A V, (e = .sync (rest t (res t)) ∧ ∀ a, own t a → ms a = m1 a) ∧
        ∀ a, own t a → m a = ms a)
      (fun t => (p t).bind fun r => .sync (rest t r)) m0 := by
    apply running_raceFree hdisj
    intro t
    apply solo_bind
    refine solo_mono (h t) ?_
    rintro e m ⟨r, rfl, rfl, hm⟩
    exact ⟨_, rfl, rfl, hm⟩
  obtain ⟨g, hi, hsafe⟩ := hrun
  refine ⟨g, hi, fun t => (hsafe t).mono ?_⟩
  rintro e _ m _ ⟨ms, ⟨rfl, hm⟩, heq⟩
  exact ⟨_, rfl, rfl, fun a ha => (heq a ha).trans (hm a ha)⟩

omit [DecidableEq τ] in
/-- **A race-free phase before a barrier** ends in `m1`. -/
theorem correct_determined_next {Post : (τ → S) → Mem A V → Prop} (own : τ → A → Prop)
    (hdisj : ∀ t u a, own t a → own u a → t = u) {p : τ → Prog A V R}
    {rest : τ → R → Prog A V S} (res : τ → R) (m1 : Mem A V)
    (hframe : ∀ a, (∀ t, ¬ own t a) → m1 a = m0 a)
    (h : ∀ t, Solo dom (fun a => own t a ∨ ∀ u, ¬ own u a) (own t)
      (fun e m => ∃ r, e = .ret r ∧ r = res t ∧ ∀ a, own t a → m a = m1 a) (p t) m0)
    (hnext : Correct dom Post (fun t => rest t (res t)) m1) :
    Correct dom Post (fun t => (p t).bind fun r => .sync (rest t r)) m0 := by
  refine .next (ownership own m0) (fun t k _ m => k = rest t (res t) ∧ ∀ a, own t a → m a = m1 a)
    (running_determined own hdisj rest res m1 h) ?_
  intro ks _ m hi hE
  obtain rfl : ks = fun t => rest t (res t) := funext fun t => (hE t).1
  rw [memory_determined hframe hi fun t => (hE t).2]
  exact hnext

omit [DecidableEq τ] in
/-- **A race-free last phase** ends in `m1`. -/
theorem correct_determined_last {Post : (τ → R) → Mem A V → Prop} (own : τ → A → Prop)
    (hdisj : ∀ t u a, own t a → own u a → t = u) {p : τ → Prog A V R} (res : τ → R)
    (m1 : Mem A V) (hframe : ∀ a, (∀ t, ¬ own t a) → m1 a = m0 a)
    (h : ∀ t, Solo dom (fun a => own t a ∨ ∀ u, ¬ own u a) (own t)
      (fun e m => ∃ r, e = .ret r ∧ r = res t ∧ ∀ a, own t a → m a = m1 a) (p t) m0)
    (hpost : Post res m1) : Correct dom Post p m0 := by
  obtain ⟨g, hi, hsafe⟩ := running_raceFree hdisj h
  refine .last (ownership own m0) (fun t r _ m => r = res t ∧ ∀ a, own t a → m a = m1 a)
    ⟨g, hi, fun t => (hsafe t).mono ?_⟩ ?_
  · rintro e _ m _ ⟨ms, ⟨r, rfl, hr, hm⟩, heq⟩
    exact ⟨r, rfl, hr, fun a ha => (heq a ha).trans (hm a ha)⟩
  · intro rs _ m hi hE
    obtain rfl : rs = res := funext fun t => (hE t).1
    rw [memory_determined hframe hi fun t => (hE t).2]
    exact hpost

end Ownership

end BarrierThreads
