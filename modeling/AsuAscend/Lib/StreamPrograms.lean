/-
Programs that read and write byte streams and act on shared data.

A program is a tree of the calls it makes: a `recv` for at most so many bytes, a
`send`, an operation on the shared data. What a call returns chooses the branch.
`Meets` says that a program reads exactly one message, whatever pieces the calls
deliver it in, acts exactly on the operations that the message asks for, and
writes; `Meets.bind` composes such statements, `meets_recvLoop` and
`meets_sendLoop` are the rules of the two loops that move a whole buffer.

## Whatever pieces

A socket call moves at least one byte and at most as many as it is asked for; how many is not up to
the program. `Meets` quantifies over these numbers, so that a statement about a program holds for
every cut of the streams. The `Talk` is what is left of the message, the operations still to make
and made, and the bytes written: a program is described by what it turns one talk into. `Lost` are
the results after which the connection is of no more use, and what a program does from there on is
asked only to be quiet.
-/
import Mathlib.Data.PNat.Basic
import Mathlib.Tactic.Common

set_option autoImplicit false

namespace StreamPrograms

/-- A program over a byte stream, with operations `Op` on shared data. -/
inductive Prog (Op : Type) (Res : Op → Type) (α : Type) : Type
  /-- Return. -/
  | ret (a : α)
  /-- Receive at most `max` bytes. The answer is `none` when the call fails and
  the empty string at the end of the stream. -/
  | recv (max : ℕ) (next : Option (List UInt8) → Prog Op Res α)
  /-- Send `data`. The answer is `none` when the call fails, else how many bytes
  it took. -/
  | send (data : List UInt8) (next : Option ℕ+ → Prog Op Res α)
  /-- Operate on the shared data. -/
  | op (o : Op) (next : Res o → Prog Op Res α)

variable {Op : Type} {Res : Op → Type} {α β γ : Type}

namespace Prog

def bind : Prog Op Res α → (α → Prog Op Res β) → Prog Op Res β
  | ret a, f => f a
  | recv n k, f => recv n fun x => (k x).bind f
  | send d k, f => send d fun x => (k x).bind f
  | op o k, f => op o fun x => (k x).bind f

instance : Monad (Prog Op Res) where
  pure := ret
  bind := bind

@[simp] theorem ret_bind (a : α) (f : α → Prog Op Res β) :
    (ret a : Prog Op Res α) >>= f = f a := rfl

@[simp] theorem recv_bind (n : ℕ) (k : Option (List UInt8) → Prog Op Res α)
    (f : α → Prog Op Res β) : recv n k >>= f = recv n fun x => k x >>= f := rfl

@[simp] theorem send_bind (d : List UInt8) (k : Option ℕ+ → Prog Op Res α)
    (f : α → Prog Op Res β) : send d k >>= f = send d fun x => k x >>= f := rfl

@[simp] theorem op_bind (o : Op) (k : Res o → Prog Op Res α) (f : α → Prog Op Res β) :
    op o k >>= f = op o fun x => k x >>= f := rfl

/-- One operation, whose result is returned. -/
def perform (o : Op) : Prog Op Res (Res o) := op o ret

end Prog

open Prog

/-! ## Moving a whole buffer -/

/-- Why a buffer could not be filled. -/
inductive Lost
  | ended
  | failed
deriving DecidableEq

/-- Receive until `remaining` more bytes are there; `got` are there already. -/
def recvLoop (remaining : ℕ) (got : List UInt8) : Prog Op Res (Except Lost (List UInt8)) :=
  if remaining = 0 then
    ret (.ok got)
  else
    recv remaining fun answer =>
      match answer with
      | none => ret (.error .failed)
      | some chunk =>
          if chunk.length = 0 then
            ret (.error .ended)
          else
            recvLoop (remaining - chunk.length) (got ++ chunk)
termination_by remaining

/-- Send until `data` is gone; `false` when a call fails. -/
def sendLoop (data : List UInt8) : Prog Op Res Bool :=
  if data.length = 0 then
    ret true
  else
    send data fun answer =>
      match answer with
      | none => ret false
      | some taken => sendLoop (data.drop taken)
termination_by data.length
decreasing_by
  have := taken.pos
  simp only [List.length_drop]
  omega

/-! ## What a program does with a message -/

/-- `p` makes no operation, and what it returns satisfies `Q`. -/
def Quiet (Q : α → Prop) : Prog Op Res α → Prop
  | .ret a => Q a
  | .recv _ k => ∀ x, Quiet Q (k x)
  | .send _ k => ∀ x, Quiet Q (k x)
  | .op _ _ => False

/-- Two programs in sequence are quiet if both are. -/
theorem quiet_bind {Q : β → Prop} {p : Prog Op Res α} {f : α → Prog Op Res β}
    (h : Quiet (fun a => Quiet Q (f a)) p) : Quiet Q (p >>= f) := by
  induction p with
  | ret a => exact h
  | recv n k ih => exact fun x => ih x (h x)
  | send d k ih => exact fun x => ih x (h x)
  | op o k ih => exact h

theorem Quiet.mono {Q Q' : α → Prop} (hQ : ∀ a, Q a → Q' a) {p : Prog Op Res α}
    (h : Quiet Q p) : Quiet Q' p := by
  induction p with
  | ret a => exact hQ a h
  | recv n k ih => exact fun x => ih x (h x)
  | send d k ih => exact fun x => ih x (h x)
  | op o k ih => exact h

theorem quiet_sendLoop {Q : Bool → Prop} (hQ : ∀ b, Q b) (data : List UInt8) :
    Quiet Q (sendLoop data : Prog Op Res _) := by
  generalize hn : data.length = n
  induction n using Nat.strong_induction_on generalizing data with
  | _ n ih =>
      unfold sendLoop
      split_ifs with h0
      · exact hQ _
      · intro answer
        cases answer with
        | none => exact hQ _
        | some taken =>
            have := taken.pos
            exact ih _ (by rw [List.length_drop]; omega) _ rfl

/-- One side of a conversation about one message. -/
structure Talk (Op : Type) (Res : Op → Type) where
  /-- the rest of the message to be read -/
  input : List UInt8
  /-- the operations the message still asks for -/
  todo : List Op
  /-- the operations made, with their results -/
  did : List ((o : Op) × Res o)
  /-- the bytes written -/
  out : List UInt8

/-- From `t` on, `p` reads exactly `t.input`, makes exactly the operations
`t.todo` in order, and returns with `Post`. It listens and operates only when it
has written `said`. If a `recv` or `send` breaks it makes no further operation and returns
with `Broken`. -/
def Meets (said : List UInt8) (Broken : α → Prop) (Post : α → Talk Op Res → Prop) :
    Prog Op Res α → Talk Op Res → Prop
  | .ret a, t => Post a t
  | .recv n k, t =>
      0 < n ∧ n ≤ t.input.length ∧ t.out = said ∧
      Quiet Broken (k none) ∧ Quiet Broken (k (some [])) ∧
      ∀ c, 0 < c → c ≤ n →
        Meets said Broken Post (k (some (t.input.take c))) { t with input := t.input.drop c }
  | .send d k, t =>
      d ≠ [] ∧ Quiet Broken (k none) ∧
      ∀ c : ℕ+, (c : ℕ) ≤ d.length →
        Meets said Broken Post (k (some c)) { t with out := t.out ++ d.take c }
  | .op o k, t =>
      t.out = said ∧ ∃ rest, t.todo = o :: rest ∧
      ∀ r, Meets said Broken Post (k r) { t with todo := rest, did := t.did ++ [⟨o, r⟩] }

section Rules

variable {said : List UInt8}

theorem Meets.bind {Broken : β → Prop} {Post : β → Talk Op Res → Prop} {p : Prog Op Res α}
    {f : α → Prog Op Res β} {t : Talk Op Res}
    (h : Meets said (fun a => Quiet Broken (f a)) (fun a => Meets said Broken Post (f a)) p t) :
    Meets said Broken Post (p >>= f) t := by
  induction p generalizing t with
  | ret a => exact h
  | recv n k ih =>
      obtain ⟨hpos, hlen, hout, hnone, hend, hchunk⟩ := h
      exact ⟨hpos, hlen, hout, quiet_bind hnone, quiet_bind hend,
        fun c hc hcn => ih _ (hchunk c hc hcn)⟩
  | send d k ih =>
      obtain ⟨hd, hnone, hchunk⟩ := h
      exact ⟨hd, quiet_bind hnone, fun c hc => ih _ (hchunk c hc)⟩
  | op o k ih =>
      obtain ⟨hout, rest, htodo, hres⟩ := h
      exact ⟨hout, rest, htodo, fun r => ih r (hres r)⟩

theorem Meets.mono {Broken Broken' : α → Prop} {Post Post' : α → Talk Op Res → Prop}
    (hB : ∀ a, Broken a → Broken' a) (hP : ∀ a t, Post a t → Post' a t) {p : Prog Op Res α}
    {t : Talk Op Res} (h : Meets said Broken Post p t) : Meets said Broken' Post' p t := by
  induction p generalizing t with
  | ret a => exact hP a t h
  | recv n k ih =>
      obtain ⟨hpos, hlen, hout, hnone, hend, hchunk⟩ := h
      exact ⟨hpos, hlen, hout, hnone.mono hB, hend.mono hB,
        fun c hc hcn => ih _ (hchunk c hc hcn)⟩
  | send d k ih =>
      obtain ⟨hd, hnone, hchunk⟩ := h
      exact ⟨hd, hnone.mono hB, fun c hc => ih _ (hchunk c hc)⟩
  | op o k ih =>
      obtain ⟨hout, rest, htodo, hres⟩ := h
      exact ⟨hout, rest, htodo, fun r => ih r (hres r)⟩

/-- Receiving a whole buffer takes exactly its bytes from the message, in
whatever pieces they come. -/
theorem meets_recvLoop {Broken : Except Lost (List UInt8) → Prop}
    {Post : Except Lost (List UInt8) → Talk Op Res → Prop} (n : ℕ) (got : List UInt8)
    {t : Talk Op Res} (hlen : n ≤ t.input.length) (hsaid : n = 0 ∨ t.out = said)
    (hB : ∀ e, Broken (.error e))
    (hP : Post (.ok (got ++ t.input.take n)) { t with input := t.input.drop n }) :
    Meets said Broken Post (recvLoop n got) t := by
  induction n using Nat.strong_induction_on generalizing got t with
  | _ n ih =>
      unfold recvLoop
      split_ifs with h0
      · subst h0
        rw [List.take_zero, List.append_nil] at hP
        exact hP
      · have hout := hsaid.resolve_left h0
        refine ⟨Nat.pos_of_ne_zero h0, hlen, hout, hB _, ?_, ?_⟩
        · exact hB _
        -- a chunk of `c` bytes leaves a loop for the other `n - c`
        · intro c hc hcn
          have htake : (t.input.take c).length = c := by rw [List.length_take]; omega
          dsimp only
          rw [if_neg (by omega), htake]
          apply ih (n - c) (by omega)
          · show n - c ≤ (t.input.drop c).length
            rw [List.length_drop]
            omega
          · exact Or.inr hout
          · show Post (.ok (got ++ t.input.take c ++ (t.input.drop c).take (n - c)))
              { t with input := (t.input.drop c).drop (n - c) }
            have hsplit : t.input.take c ++ (t.input.drop c).take (n - c) = t.input.take n := by
              rw [← List.take_add, Nat.add_sub_cancel' hcn]
            rw [List.append_assoc, hsplit, List.drop_drop, Nat.add_sub_cancel' hcn]
            exact hP

/-- Sending a whole buffer writes exactly its bytes. -/
theorem meets_sendLoop {Broken : Bool → Prop} {Post : Bool → Talk Op Res → Prop}
    (data : List UInt8) {t : Talk Op Res} (hB : Broken false)
    (hP : Post true { t with out := t.out ++ data }) :
    Meets said Broken Post (sendLoop data) t := by
  generalize hn : data.length = n
  induction n using Nat.strong_induction_on generalizing data t with
  | _ n ih =>
      unfold sendLoop
      split_ifs with h0
      · rw [List.eq_nil_of_length_eq_zero h0, List.append_nil] at hP
        exact hP
      · refine ⟨fun hd => h0 (by rw [hd, List.length_nil]), hB, ?_⟩
        intro c hc
        have hpos := c.pos
        apply ih _ _ _ _ rfl
        · rw [List.length_drop]
          omega
        · show Post true { t with out := t.out ++ data.take c ++ data.drop c }
          rw [List.append_assoc, List.take_append_drop]
          exact hP

/-- The operation that the other side is waiting for. -/
theorem meets_perform {o : Op} {Broken : Res o → Prop} {Post : Res o → Talk Op Res → Prop}
    {t : Talk Op Res} {rest : List Op} (hsaid : t.out = said) (htodo : t.todo = o :: rest)
    (hP : ∀ r, Post r { t with todo := rest, did := t.did ++ [⟨o, r⟩] }) :
    Meets said Broken Post (perform o) t := ⟨hsaid, rest, htodo, hP⟩

/-- A program that listens and operates only before it writes has, once it has
written something, nothing but writing left to do. -/
theorem Meets.only_writes {Broken : α → Prop} {Post : α → Talk Op Res → Prop}
    {p : Prog Op Res α} {t : Talk Op Res} (h : Meets [] Broken Post p t) (hout : t.out ≠ []) :
    ∃ a more, Post a { t with out := t.out ++ more } := by
  induction p generalizing t with
  | ret a => exact ⟨a, [], by rw [List.append_nil]; exact h⟩
  | recv n k _ => exact absurd h.2.2.1 hout
  | send d k ih =>
      obtain ⟨hd, _, hchunk⟩ := h
      have hpos : 0 < d.length := List.length_pos_iff.mpr hd
      obtain ⟨a, more, hpost⟩ := ih _ (hchunk 1 hpos) fun hnil => hout (List.append_eq_nil_iff.mp hnil).1
      refine ⟨a, d.take (1 : ℕ+) ++ more, ?_⟩
      rw [← List.append_assoc]
      exact hpost
  | op o k _ => exact absurd h.1 hout

/-- What a program has written stays what its output begins with. -/
theorem Meets.out_grows (hRes : ∀ o, Nonempty (Res o)) {Broken : α → Prop}
    {Post : α → Talk Op Res → Prop} {p : Prog Op Res α} {t : Talk Op Res}
    (h : Meets said Broken Post p t) : ∃ a t', Post a t' ∧ t.out <+: t'.out := by
  induction p generalizing t with
  | ret a => exact ⟨a, t, h, List.prefix_refl _⟩
  | recv n k ih =>
      obtain ⟨hpos, _, _, _, _, hchunk⟩ := h
      obtain ⟨a, t', hpost, hprefix⟩ := ih _ (hchunk 1 Nat.one_pos hpos)
      exact ⟨a, t', hpost, hprefix⟩
  | send d k ih =>
      obtain ⟨hd, _, hchunk⟩ := h
      obtain ⟨a, t', hpost, hprefix⟩ := ih _ (hchunk 1 (List.length_pos_iff.mpr hd))
      exact ⟨a, t', hpost, (List.prefix_append _ _).trans hprefix⟩
  | op o k ih =>
      obtain ⟨_, rest, _, hres⟩ := h
      obtain ⟨r⟩ := hRes o
      obtain ⟨a, t', hpost, hprefix⟩ := ih r (hres r)
      exact ⟨a, t', hpost, hprefix⟩

/-- If it has written all it can, it has returned. -/
theorem Meets.has_returned {Broken : α → Prop} {Post : α → Talk Op Res → Prop}
    {p : Prog Op Res α} {t : Talk Op Res} (h : Meets [] Broken Post p t) (hout : t.out ≠ [])
    (hall : ∀ a more, Post a { t with out := t.out ++ more } → more = []) :
    ∃ a, p = .ret a ∧ Post a t := by
  cases p with
  | ret a => exact ⟨a, rfl, h⟩
  | recv n k => exact absurd h.2.2.1 hout
  | op o k => exact absurd h.1 hout
  | send d k =>
      obtain ⟨hd, _, hchunk⟩ := h
      have hnext := hchunk 1 (List.length_pos_iff.mpr hd)
      obtain ⟨a, more, hpost⟩ :=
        hnext.only_writes fun hnil => hout (List.append_eq_nil_iff.mp hnil).1
      rw [List.append_assoc] at hpost
      have hnil := (List.append_eq_nil_iff.mp (hall a _ hpost)).1
      rcases List.take_eq_nil_iff.mp hnil with hzero | hzero
      · exact absurd hzero (by decide)
      · exact absurd hzero hd

end Rules

end StreamPrograms
