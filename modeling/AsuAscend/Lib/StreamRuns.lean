/-
A program on a stream that ends.

A `Run` is a program that goes round and round, the rest of a finite stream, the
shared data, which nobody else touches, and the bytes written so far. `Ends` says
that one round comes to its end with `Post`, whatever pieces the calls deliver
the stream in and however much of the data each `send` takes; at the end of the stream
`recv` returns the empty string. `Leads` says the same of all rounds, and
`leads_spec` what that means for the runs step by step.

## Ends and fails

The stream is finite, and every byte of it is there from the beginning; no call fails. A round that
meets the end of the stream finds the empty string, once and ever after. `Leads` is an inductive
statement about all rounds, so a proof of it gives a bound on the steps as well.
-/
import AsuAscend.Lib.StreamPrograms
import AsuAscend.Lib.SequentialObject
import Mathlib.Logic.Relation

set_option autoImplicit false

open SequentialObject

namespace StreamPrograms

variable {Op : Type} {Res : Op → Type} {σ α β : Type}

/-! ## One round -/

section Ends

variable (step : (o : Op) → σ → Res o × σ)

/-- The program comes to its end, and `Post` holds of what it returns, the rest of the stream,
the data and what is written. -/
def Ends (Post : α → List UInt8 → σ → List UInt8 → Prop) :
    Prog Op Res α → List UInt8 → σ → List UInt8 → Prop
  | .ret a, input, s, out => Post a input s out
  | .recv n k, input, s, out =>
      0 < n ∧ (input = [] → Ends Post (k (some [])) input s out) ∧
      ∀ c, 0 < c → c ≤ n → c ≤ input.length →
        Ends Post (k (some (input.take c))) (input.drop c) s out
  | .send d k, input, s, out =>
      d ≠ [] ∧ ∀ c : ℕ+, (c : ℕ) ≤ d.length → Ends Post (k (some c)) input s (out ++ d.take c)
  | .op o k, input, s, out => Ends Post (k (step o s).1) input (step o s).2 out

variable {step} {input out : List UInt8} {s : σ}

theorem Ends.bind {Post : β → List UInt8 → σ → List UInt8 → Prop} {p : Prog Op Res α}
    {f : α → Prog Op Res β}
    (h : Ends step (fun a input s out => Ends step Post (f a) input s out) p input s out) :
    Ends step Post (p >>= f) input s out := by
  induction p generalizing input s out with
  | ret a => exact h
  | recv n k ih => exact ⟨h.1, fun hnil => ih _ (h.2.1 hnil), fun c h0 hn hc => ih _ (h.2.2 c h0 hn hc)⟩
  | send d k ih => exact ⟨h.1, fun c hc => ih _ (h.2 c hc)⟩
  | op o k ih => exact ih _ h

theorem Ends.mono {Post Post' : α → List UInt8 → σ → List UInt8 → Prop}
    (hP : ∀ a input s out, Post a input s out → Post' a input s out) {p : Prog Op Res α}
    (h : Ends step Post p input s out) : Ends step Post' p input s out := by
  induction p generalizing input s out with
  | ret a => exact hP _ _ _ _ h
  | recv n k ih => exact ⟨h.1, fun hnil => ih _ (h.2.1 hnil), fun c h0 hn hc => ih _ (h.2.2 c h0 hn hc)⟩
  | send d k ih => exact ⟨h.1, fun c hc => ih _ (h.2 c hc)⟩
  | op o k ih => exact ih _ h

/-- A buffer is filled, or the stream ends and is used up. -/
theorem ends_recvLoop {Post : Except Lost (List UInt8) → List UInt8 → σ → List UInt8 → Prop}
    (n : ℕ) (got : List UInt8)
    (hfull : n ≤ input.length → Post (.ok (got ++ input.take n)) (input.drop n) s out)
    (hcut : input.length < n → Post (.error .ended) [] s out) :
    Ends step Post (recvLoop n got) input s out := by
  induction n using Nat.strong_induction_on generalizing got input with
  | _ n ih =>
      unfold recvLoop
      split_ifs with h0
      · have hfull := hfull (by omega)
        rw [h0, List.take_zero, List.append_nil, List.drop_zero] at hfull
        exact hfull
      · refine ⟨Nat.pos_of_ne_zero h0, ?_, ?_⟩
        · rintro rfl
          exact hcut (Nat.pos_of_ne_zero h0)
        -- a chunk of `c` bytes leaves a loop for the other `n - c`
        · intro c hc hcn hlen
          have htake : (input.take c).length = c := by rw [List.length_take]; omega
          dsimp only
          rw [if_neg (by omega), htake]
          apply ih (n - c) (by omega)
          · intro hfits
            rw [List.length_drop] at hfits
            have hsplit : input.take c ++ (input.drop c).take (n - c) = input.take n := by
              rw [← List.take_add, Nat.add_sub_cancel' hcn]
            rw [List.append_assoc, hsplit, List.drop_drop, Nat.add_sub_cancel' hcn]
            exact hfull (by omega)
          · intro hshort
            rw [List.length_drop] at hshort
            exact hcut (by omega)

/-- Sending ends with all bytes written, in however many pieces. -/
theorem ends_sendLoop {Post : Bool → List UInt8 → σ → List UInt8 → Prop} (data : List UInt8)
    (hP : Post true input s (out ++ data)) : Ends step Post (sendLoop data) input s out := by
  generalize hn : data.length = n
  induction n using Nat.strong_induction_on generalizing data out with
  | _ n ih =>
      unfold sendLoop
      split_ifs with h0
      · rw [List.eq_nil_of_length_eq_zero h0, List.append_nil] at hP
        exact hP
      · refine ⟨fun hd => h0 (by rw [hd, List.length_nil]), ?_⟩
        intro c hc
        have hpos := c.pos
        apply ih _ _ _ _ rfl
        · rw [List.length_drop]
          omega
        · rw [List.append_assoc, List.take_append_drop]
          exact hP

/-- A program that meets a message ends when the stream begins with that message, and leaves
the rest of the stream. -/
theorem Meets.ends {said : List UInt8} {Broken : α → Prop} {Post : α → Talk Op Res → Prop}
    {p : Prog Op Res α} {t : Talk Op Res} (h : Meets said Broken Post p t) (rest base : List UInt8) :
    Ends step (fun a input s' out => ∃ t', Post a t' ∧ input = t'.input ++ rest ∧
        out = base ++ t'.out ∧ t'.did ++ trace step s' t'.todo = t.did ++ trace step s t.todo ∧
        after step s' t'.todo = after step s t.todo)
      p (t.input ++ rest) s (base ++ t.out) := by
  induction p generalizing t s with
  | ret a => exact ⟨t, h, rfl, rfl, rfl, rfl⟩
  | recv n k ih =>
      obtain ⟨hpos, hlen, _, _, _, hchunk⟩ := h
      refine ⟨hpos, ?_, ?_⟩
      · intro hnil
        rw [(List.append_eq_nil_iff.mp hnil).1, List.length_nil] at hlen
        omega
      · intro c hc hcn _
        have hle : c ≤ t.input.length := hcn.trans hlen
        -- the chunk ends before the message does
        rw [List.take_append_of_le_length hle, List.drop_append_of_le_length hle]
        exact ih _ (hchunk c hc hcn)
  | send d k ih =>
      obtain ⟨hd, _, hchunk⟩ := h
      refine ⟨hd, fun c hc => ?_⟩
      rw [List.append_assoc]
      exact ih _ (hchunk c hc)
  | op o k ih =>
      obtain ⟨_, rest', htodo, hres⟩ := h
      apply (ih (step o s).1 (hres _)).mono
      rintro a input s' out ⟨t', hpost, hinput, hout, hdid, hafter⟩
      refine ⟨t', hpost, hinput, hout, ?_, ?_⟩
      · rw [hdid, htodo, trace, List.append_assoc]
        rfl
      · rw [hafter, htodo, after_cons]

end Ends

/-! ## All rounds -/

structure Run (Op : Type) (Res : Op → Type) (σ β : Type) where
  code : Prog Op Res (Option β)
  input : List UInt8
  state : σ
  out : List UInt8

section Runs

variable (step : (o : Op) → σ → Res o × σ) (body : Prog Op Res (Option β))

/-- A round that returns `none` is followed by another one. -/
inductive Run.Step : Run Op Res σ β → Run Op Res σ β → Prop
  | recv {r max next} (c : ℕ) (hcode : r.code = .recv max next) (hpos : 0 < c) (hmax : c ≤ max)
      (hinput : c ≤ r.input.length) :
      Step r { r with code := next (some (r.input.take c)), input := r.input.drop c }
  | ended {r max next} (hcode : r.code = .recv max next) (hinput : r.input = []) :
      Step r { r with code := next (some []) }
  | send {r data next} (c : ℕ+) (hcode : r.code = .send data next) (hlen : (c : ℕ) ≤ data.length) :
      Step r { r with code := next (some c), out := r.out ++ data.take c }
  | op {r o next} (hcode : r.code = .op o next) :
      Step r { r with code := next (step o r.state).1, state := (step o r.state).2 }
  | again {r} (hcode : r.code = .ret none) : Step r { r with code := body }

def Run.Reaches : Run Op Res σ β → Run Op Res σ β → Prop :=
  Relation.ReflTransGen (Run.Step step body)

/-- The rounds come to their end, with `Post`. -/
inductive Leads (Post : β → List UInt8 → σ → List UInt8 → Prop) :
    Prog Op Res (Option β) → List UInt8 → σ → List UInt8 → Prop
  | done {b input s out} (h : Post b input s out) : Leads Post (.ret (some b)) input s out
  | again {input s out} (h : Leads Post body input s out) : Leads Post (.ret none) input s out
  | recv {n k input s out} (hpos : 0 < n)
      (hended : input = [] → Leads Post (k (some [])) input s out)
      (hchunk : ∀ c, 0 < c → c ≤ n → c ≤ input.length →
        Leads Post (k (some (input.take c))) (input.drop c) s out) :
      Leads Post (.recv n k) input s out
  | send {d k input s out} (hd : d ≠ [])
      (hchunk : ∀ c : ℕ+, (c : ℕ) ≤ d.length →
        Leads Post (k (some c)) input s (out ++ d.take c)) :
      Leads Post (.send d k) input s out
  | op {o k input s out} (h : Leads Post (k (step o s).1) input (step o s).2 out) :
      Leads Post (.op o k) input s out

variable {step body} {Post : β → List UInt8 → σ → List UInt8 → Prop}

/-- A round that ends leads on to the rounds that follow it. -/
theorem Ends.leads {p : Prog Op Res (Option β)} {input out : List UInt8} {s : σ}
    (h : Ends step (fun a input s out => Leads step body Post (.ret a) input s out) p input s out) :
    Leads step body Post p input s out := by
  induction p generalizing input s out with
  | ret a => exact h
  | recv n k ih => exact .recv h.1 (fun hnil => ih _ (h.2.1 hnil)) fun c h0 hn hc => ih _ (h.2.2 c h0 hn hc)
  | send d k ih => exact .send h.1 fun c hc => ih _ (h.2 c hc)
  | op o k ih => exact .op (ih _ h)

theorem Leads.mono {Post' : β → List UInt8 → σ → List UInt8 → Prop}
    (hP : ∀ b input s out, Post b input s out → Post' b input s out) {p : Prog Op Res (Option β)}
    {input out : List UInt8} {s : σ} (h : Leads step body Post p input s out) :
    Leads step body Post' p input s out := by
  induction h with
  | done h => exact .done (hP _ _ _ _ h)
  | again _ ih => exact .again ih
  | recv hpos _ _ ihended ihchunk => exact .recv hpos ihended ihchunk
  | send hd _ ih => exact .send hd ih
  | op _ ih => exact .op ih

/-- Every step keeps that the rounds end with `Post`. -/
theorem Leads.next {r r' : Run Op Res σ β} (h : Leads step body Post r.code r.input r.state r.out)
    (hstep : Run.Step step body r r') : Leads step body Post r'.code r'.input r'.state r'.out := by
  obtain ⟨code, input, state, out⟩ := r
  cases hstep with
  | recv c hcode hpos hmax hinput =>
      subst hcode
      cases h with
      | recv _ _ hchunk => exact hchunk c hpos hmax hinput
  | ended hcode hinput =>
      subst hcode
      cases h with
      | recv _ hended _ => exact hended hinput
  | send c hcode hlen =>
      subst hcode
      cases h with
      | send _ hchunk => exact hchunk c hlen
  | op hcode =>
      subst hcode
      cases h with
      | op h => exact h
  | again hcode =>
      subst hcode
      cases h with
      | again h => exact h

/-- A program that leads somewhere has no infinite run. -/
theorem Leads.acc {p : Prog Op Res (Option β)} {input out : List UInt8} {s : σ}
    (h : Leads step body Post p input s out) :
    Acc (fun r' r => Run.Step step body r r') ⟨p, input, s, out⟩ := by
  -- a proof that the program leads somewhere is a tree as deep as its longest run
  induction h with
  | done h =>
      refine ⟨_, fun r' hstep => ?_⟩
      cases hstep with
      | again hcode => cases hcode
      | _ => contradiction
  | again h ih =>
      refine ⟨_, fun r' hstep => ?_⟩
      cases hstep with
      | again _ => exact ih
      | _ => contradiction
  -- any piece of the stream, or the end of it
  | recv hpos hended hchunk ihended ihchunk =>
      refine ⟨_, fun r' hstep => ?_⟩
      cases hstep with
      | recv c hcode h0 hmax hinput =>
          cases hcode
          exact ihchunk c h0 hmax hinput
      | ended hcode hinput =>
          cases hcode
          exact ihended hinput
      | _ => contradiction
  -- any number of bytes that the call takes
  | send hd hchunk ih =>
      refine ⟨_, fun r' hstep => ?_⟩
      cases hstep with
      | send c hcode hlen =>
          cases hcode
          exact ih c hlen
      | _ => contradiction
  | op h ih =>
      refine ⟨_, fun r' hstep => ?_⟩
      cases hstep with
      | op hcode =>
          cases hcode
          exact ih
      | _ => contradiction

/-- A run that cannot go on has come to its end. -/
theorem Leads.progress {r : Run Op Res σ β} (h : Leads step body Post r.code r.input r.state r.out) :
    (∃ r', Run.Step step body r r') ∨
      ∃ b, r.code = .ret (some b) ∧ Post b r.input r.state r.out := by
  obtain ⟨code, input, state, out⟩ := r
  cases h with
  | done h => exact Or.inr ⟨_, rfl, h⟩
  | again _ => exact Or.inl ⟨_, .again rfl⟩
  | recv hpos _ _ =>
      cases input with
      | nil => exact Or.inl ⟨_, .ended rfl rfl⟩
      | cons b input => exact Or.inl ⟨_, .recv 1 rfl Nat.one_pos hpos (Nat.le_add_left 1 _)⟩
  | send hd _ => exact Or.inl ⟨_, .send 1 rfl (List.length_pos_iff.mpr hd)⟩
  | op _ => exact Or.inl ⟨_, .op rfl⟩

/-- No run is infinite, none gets stuck, and every one that has come to its end has
come to `Post`. -/
theorem leads_spec {r : Run Op Res σ β} (h : Leads step body Post r.code r.input r.state r.out) :
    Acc (fun r' r => Run.Step step body r r') r ∧
    ∀ r', Run.Reaches step body r r' →
      ((∃ r'', Run.Step step body r' r'') ∨ ∃ b, r'.code = .ret (some b)) ∧
      ∀ b, r'.code = .ret (some b) → Post b r'.input r'.state r'.out := by
  refine ⟨h.acc, ?_⟩
  intro r' hr'
  have hled : Leads step body Post r'.code r'.input r'.state r'.out := by
    induction hr' with
    | refl => exact h
    | tail _ hstep ih => exact ih.next hstep
  refine ⟨?_, ?_⟩
  · rcases hled.progress with hnext | ⟨b, hb, _⟩
    · exact Or.inl hnext
    · exact Or.inr ⟨b, hb⟩
  · intro b hb
    rw [hb] at hled
    cases hled with
    | done hpost => exact hpost

/-- Some run comes to its end. -/
theorem Leads.reaches_end {r : Run Op Res σ β}
    (h : Leads step body Post r.code r.input r.state r.out) :
    ∃ r' b, Run.Reaches step body r r' ∧ r'.code = .ret (some b) ∧ Post b r'.input r'.state r'.out := by
  have hacc : Acc (fun r' r => Run.Step step body r r') r := h.acc
  induction hacc with
  | intro r _ ih =>
      rcases h.progress with ⟨r', hstep⟩ | ⟨b, hcode, hpost⟩
      · obtain ⟨r'', b, hreach, hcode, hpost⟩ := ih r' hstep (h.next hstep)
        exact ⟨r'', b, .head hstep hreach, hcode, hpost⟩
      · exact ⟨r, b, .refl, hcode, hpost⟩

end Runs

end StreamPrograms
