/-
Two tables that are mutually inverse partial maps, and what installing or
removing an entry does to them.

A cache directory keeps such a pair: which slot a token sits in, and which token
sits in a slot. `Mathlib.Data.PEquiv` bundles the same notion as one object; here
the two tables are separate values that a program overwrites one at a time, so
the relation between them is the predicate and the updates are plain functions.

## What is proved

`installAll` writes a list of `(b, a)` pairs one after another, each write first
clearing whatever the slot held. Its value at every point is known as soon as the
slots are distinct, the incoming names are distinct and none of them was present
(`installAll_fwd_mem`, `installAll_fwd_notMem`, `installAll_bwd_mem`,
`installAll_bwd_notMem`), so any other order of the same writes gives the same
tables.

The lists are read from the front, and nothing is asked of their order. Where a slot or a name
repeats the last write wins, which is why the four lemmas ask for distinctness.
-/
import Mathlib.Data.Finset.Card
import Mathlib.Data.List.Nodup
import Mathlib.Logic.Function.Basic

set_option autoImplicit false

open Function (update)

namespace InverseTables

section Basic

variable {α β : Type*}

/-- `f` and `g` are inverse to each other wherever they are defined. -/
def Inverse (f : α → Option β) (g : β → Option α) : Prop :=
  ∀ a b, f a = some b ↔ g b = some a

variable {f : α → Option β} {g : β → Option α}

theorem Inverse.symm (h : Inverse f g) : Inverse g f := fun b a => (h a b).symm

/-- Two names in one slot are one name. -/
theorem Inverse.inj (h : Inverse f g) {a a' : α} {b : β} (ha : f a = some b)
    (ha' : f a' = some b) : a = a' := by
  have h1 := (h a b).mp ha
  have h2 := (h a' b).mp ha'
  rw [h1] at h2
  exact Option.some.inj h2

/-- As many names are present in `A` as slots are occupied in `B`, when `A` and
`B` hold every present name and every occupied slot. -/
theorem Inverse.card_eq (h : Inverse f g) (A : Finset α) (B : Finset β)
    (hA : ∀ a b, f a = some b → a ∈ A) (hB : ∀ a b, f a = some b → b ∈ B) :
    (A.filter fun a => (f a).isSome).card = (B.filter fun b => (g b).isSome).card := by
  refine Finset.card_bij (fun a ha => (f a).get (Finset.mem_filter.mp ha).2) ?_ ?_ ?_
  · intro a ha
    have hfa : f a = some ((f a).get (Finset.mem_filter.mp ha).2) := by simp
    have hgb := (h _ _).mp hfa
    rw [Finset.mem_filter, hgb]
    exact ⟨hB _ _ hfa, rfl⟩
  · intro a ha a' ha' heq
    refine h.inj (b := (f a).get (Finset.mem_filter.mp ha).2) (by simp) ?_
    rw [heq]; simp
  · intro b hb
    obtain ⟨hbB, hsome⟩ := Finset.mem_filter.mp hb
    obtain ⟨a, ha⟩ := Option.isSome_iff_exists.mp hsome
    have hfa := (h a b).mpr ha
    refine ⟨a, Finset.mem_filter.mpr ⟨hA _ _ hfa, by rw [hfa]; rfl⟩, ?_⟩
    simp only [hfa, Option.get_some]

end Basic

section Updates

variable {α β : Type*} [DecidableEq α] [DecidableEq β]

/-! ## One entry -/

/-- Forget the name `o`, if there is one. -/
def evict (f : α → Option β) : Option α → α → Option β
  | none => f
  | some a => update f a none

/-- Put `a` into slot `b`: the slot's former name is forgotten first. -/
def install (p : (α → Option β) × (β → Option α)) (b : β) (a : α) :
    (α → Option β) × (β → Option α) :=
  (update (evict p.1 (p.2 b)) a (some b), update p.2 b (some a))

omit [DecidableEq β] in
/-- Evicting somebody else, or nobody, leaves an entry alone. -/
theorem evict_apply_ne {f : α → Option β} {o : Option α} {a : α} (h : o ≠ some a) :
    evict f o a = f a := by
  cases o with
  | none => rfl
  | some a' => exact Function.update_of_ne (fun heq => h (by rw [heq])) _ _

/-- Eviction only ever turns a name into an absent one. -/
theorem evict_apply {f : α → Option β} {g : β → Option α} (h : Inverse f g) (b : β) (a : α) :
    evict f (g b) a = if f a = some b then none else f a := by
  split_ifs with hab
  · rw [(h a b).mp hab]; exact Function.update_self _ _ _
  · exact evict_apply_ne fun hb => hab ((h a b).mpr hb)

/-- No name is left in the slot that was cleared. -/
theorem evict_ne {f : α → Option β} {g : β → Option α} (h : Inverse f g) (b : β) (a : α) :
    evict f (g b) a ≠ some b := by
  rw [evict_apply h]
  split_ifs with hab
  · simp
  · exact hab

/-- The names of the other slots stay. -/
theorem evict_eq_some {f : α → Option β} {g : β → Option α} (h : Inverse f g) {b b' : β}
    (hb : b' ≠ b) (a : α) : evict f (g b) a = some b' ↔ f a = some b' := by
  rw [evict_apply h]
  split_ifs with hab
  · simp [hab, Ne.symm hb]
  · rfl

/-- Removing one name from its slot keeps the tables inverse. -/
theorem Inverse.remove {f : α → Option β} {g : β → Option α} (h : Inverse f g) (b : β) :
    Inverse (evict f (g b)) (update g b none) := by
  intro a b'
  by_cases hb : b' = b
  · subst hb
    rw [Function.update_self]
    exact iff_of_false (evict_ne h b' a) (by simp)
  · rw [Function.update_of_ne hb, evict_eq_some h hb]
    exact h a b'

/-- Installing an absent name keeps the tables inverse. -/
theorem Inverse.install {f : α → Option β} {g : β → Option α} (h : Inverse f g) {a : α} (b : β)
    (ha : f a = none) :
    Inverse (InverseTables.install (f, g) b a).1 (InverseTables.install (f, g) b a).2 := by
  intro a' b'
  simp only [InverseTables.install]
  by_cases hb : b' = b
  · subst hb
    rw [Function.update_self]
    by_cases haa : a' = a
    · subst haa; simp
    · rw [Function.update_of_ne haa]
      exact iff_of_false (evict_ne h b' a') fun hg => haa (Option.some.inj hg).symm
  · rw [Function.update_of_ne hb]
    by_cases haa : a' = a
    · subst haa
      rw [Function.update_self]
      constructor
      · intro hf; exact absurd (Option.some.inj hf).symm hb
      · intro hg
        have := (h a' b').mpr hg
        rw [ha] at this; cases this
    · rw [Function.update_of_ne haa, evict_eq_some h hb]
      exact h a' b'

/-! ## A list of entries -/

/-- Install the pairs of `ps` in order. -/
def installAll (ps : List (β × α)) (p : (α → Option β) × (β → Option α)) :
    (α → Option β) × (β → Option α) :=
  ps.foldl (fun p ba => install p ba.1 ba.2) p

@[simp] theorem installAll_nil (p : (α → Option β) × (β → Option α)) :
    installAll [] p = p := rfl

@[simp] theorem installAll_cons (ba : β × α) (ps : List (β × α))
    (p : (α → Option β) × (β → Option α)) :
    installAll (ba :: ps) p = installAll ps (install p ba.1 ba.2) := rfl

theorem installAll_concat (ps : List (β × α)) (ba : β × α)
    (p : (α → Option β) × (β → Option α)) :
    installAll (ps ++ [ba]) p = install (installAll ps p) ba.1 ba.2 := by
  unfold installAll
  rw [List.foldl_append, List.foldl_cons, List.foldl_nil]

/-- A slot that no pair names keeps what it held. -/
theorem installAll_bwd_notMem {ps : List (β × α)} {p : (α → Option β) × (β → Option α)} {b : β}
    (hb : b ∉ ps.map Prod.fst) : (installAll ps p).2 b = p.2 b := by
  induction ps generalizing p with
  | nil => rfl
  | cons ba ps ih =>
      rw [List.map_cons, List.mem_cons, not_or] at hb
      rw [installAll_cons, ih hb.2]
      exact Function.update_of_ne hb.1 _ _

/-- A slot that a pair names holds that pair's name afterwards. -/
theorem installAll_bwd_mem {ps : List (β × α)} {p : (α → Option β) × (β → Option α)} {b : β} {a : α}
    (hnd : (ps.map Prod.fst).Nodup) (hab : (b, a) ∈ ps) : (installAll ps p).2 b = some a := by
  induction ps generalizing p with
  | nil => cases hab
  | cons ba ps ih =>
      rw [List.map_cons, List.nodup_cons] at hnd
      rw [installAll_cons]
      rcases List.mem_cons.mp hab with heq | htl
      · subst heq
        rw [installAll_bwd_notMem hnd.1]
        exact Function.update_self _ _ _
      · exact ih hnd.2 htl

/-- The hypotheses under which the order of the writes does not matter: distinct
slots, distinct names, and no name present before. -/
structure Fresh (ps : List (β × α)) (f : α → Option β) : Prop where
  slots : (ps.map Prod.fst).Nodup
  names : (ps.map Prod.snd).Nodup
  absent : ∀ a ∈ ps.map Prod.snd, f a = none

omit [DecidableEq α] [DecidableEq β] in
/-- The first pairs are fresh if all of them are. -/
theorem Fresh.prefix {ps qs : List (β × α)} {f : α → Option β} (h : Fresh (ps ++ qs) f) :
    Fresh ps f := by
  have hs := h.slots
  have hn := h.names
  rw [List.map_append] at hs hn
  refine ⟨(List.nodup_append.mp hs).1, (List.nodup_append.mp hn).1, fun a ha => ?_⟩
  exact h.absent a (by rw [List.map_append]; exact List.mem_append_left _ ha)

/-- The later pairs are fresh still when the first has been installed. -/
theorem Fresh.tail {ba : β × α} {ps : List (β × α)} {f : α → Option β} {g : β → Option α}
    (h : Fresh (ba :: ps) f) : Fresh ps (install (f, g) ba.1 ba.2).1 := by
  have hs := h.slots
  have hn := h.names
  rw [List.map_cons, List.nodup_cons] at hs hn
  refine ⟨hs.2, hn.2, fun a ha => ?_⟩
  have hne : a ≠ ba.2 := fun heq => hn.1 (heq ▸ ha)
  have hfa : f a = none := h.absent a (by rw [List.map_cons]; exact List.mem_cons_of_mem _ ha)
  simp only [install, Function.update_of_ne hne]
  cases hg : g ba.1 with
  | none => exact hfa
  | some a' =>
      by_cases haa : a = a'
      · subst haa; exact Function.update_self _ _ _
      · rw [evict_apply_ne (fun h => haa (Option.some.inj h).symm), hfa]

/-- A whole list of installs keeps the tables inverse. -/
theorem Inverse.installAll {ps : List (β × α)} {f : α → Option β} {g : β → Option α}
    (h : Inverse f g) (hps : Fresh ps f) :
    Inverse (InverseTables.installAll ps (f, g)).1 (InverseTables.installAll ps (f, g)).2 := by
  induction ps generalizing f g with
  | nil => exact h
  | cons ba ps ih =>
      rw [installAll_cons]
      exact ih (h.install ba.1 (hps.absent _ (by simp))) hps.tail

/-- A name that a pair installs sits in that pair's slot afterwards. -/
theorem installAll_fwd_mem {ps : List (β × α)} {f : α → Option β} {g : β → Option α}
    (h : Inverse f g) (hps : Fresh ps f) {a : α} {b : β} (hab : (b, a) ∈ ps) :
    (installAll ps (f, g)).1 a = some b :=
  ((h.installAll hps) a b).mpr (installAll_bwd_mem hps.slots hab)

/-- Any other name stays where it was, unless its slot was taken. -/
theorem installAll_fwd_notMem {ps : List (β × α)} {f : α → Option β} {g : β → Option α}
    (h : Inverse f g) (hps : Fresh ps f) {a : α} (ha : a ∉ ps.map Prod.snd) :
    (installAll ps (f, g)).1 a = (f a).filter fun b => b ∉ ps.map Prod.fst := by
  have hinv := h.installAll hps
  cases hf : (InverseTables.installAll ps (f, g)).1 a with
  | some b =>
      have hgb := (hinv a b).mp hf
      have hb : b ∉ ps.map Prod.fst := by
        intro hmem
        obtain ⟨ba, hba, rfl⟩ := List.mem_map.mp hmem
        have h2 := installAll_bwd_mem (p := (f, g)) hps.slots (b := ba.1) (a := ba.2) hba
        rw [hgb] at h2
        exact ha (List.mem_map.mpr ⟨ba, hba, (Option.some.inj h2).symm⟩)
      rw [installAll_bwd_notMem hb] at hgb
      rw [(h a b).mpr hgb, Option.filter_some, if_pos (by simpa using hb)]
  | none =>
      cases hfa : f a with
      | none => rfl
      | some b =>
          by_cases hb : b ∈ ps.map Prod.fst
          · rw [Option.filter_some, if_neg (by simpa using hb)]
          · have hgb : (InverseTables.installAll ps (f, g)).2 b = some a := by
              rw [installAll_bwd_notMem hb]; exact (h a b).mp hfa
            rw [(hinv a b).mpr hgb] at hf
            cases hf

end Updates

end InverseTables
