/-
Sequences of calls on one stream.

The three entry points of `hbm_lookup_update` share the table of a model's requests, and
what they launch runs in the order of the calls. `calls_as_expected`: a sequence of calls
goes through, and whatever the cores' interleavings, each call returns and leaves what
`expected_lookup_update` says. So `lookup_random_update` is `lookup_only` and then
`update_only` (`lookup_then_update`).

## A stream

A stream runs its launches one after the other, so that a call finds the table as the launches
before it have left it. Within a launch the cores are interleaved in any way. A call that fails
its checks launches nothing and raises, and the stream goes on (`Outcome`). `calls_as_expected`
says of the outcomes and of the table at the end that they are those of the reference, run on
the same calls; in particular they do not depend on the interleavings.
-/
import AsuAscend.LookupUpdate.RandomUpdate

set_option autoImplicit false

open MachineWords WorkSplit Interleavings

namespace AsuAscend.LookupUpdate

/-! ## The calls -/

/-- `lookup_only`. `at::empty_like` has the options and the sizes of `queryKeys`. -/
def lookupOnly (tableKeys tableStates queryKeys : Tensor) (blockDim : ℤ) : Except String Call :=
  lookupRandomUpdate tableKeys tableStates queryKeys queryKeys 0 0 blockDim false

/-- A call with the elements of its tensors. -/
inductive ModuleCall where
  | lookupRandomUpdate (queryKeys newStates : Tensor) (keys news : ℕ → ℤ)
      (seed updatePercent blockDim : ℤ) (doUpdate : Bool)
  | lookupOnly (queryKeys : Tensor) (keys : ℕ → ℤ) (blockDim : ℤ)
  | updateOnly (queryKeys newStates : Tensor) (keys news : ℕ → ℤ) (seed updatePercent blockDim : ℤ)

/-- What the caller sees. -/
inductive Outcome where
  | raised (message : String)
  | states (rows : List (List ℤ))
  | none

/-- What a call that passes its checks launches; `lookup` is there if it returns a tensor. -/
structure Plan where
  shape : LookupShape
  lookup : Option Call
  update : Option UpdateLaunch

namespace ModuleCall

def keys : ModuleCall → ℕ → ℤ
  | lookupRandomUpdate _ _ keys .. | lookupOnly _ keys _ | updateOnly _ _ keys .. => keys

/-- The elements of `newStates`; those of an empty tensor are never looked at. -/
def news : ModuleCall → ℕ → ℤ
  | lookupRandomUpdate _ _ _ news .. | updateOnly _ _ _ news .. => news
  | lookupOnly .. => fun _ => 0

def seed : ModuleCall → ℤ
  | lookupRandomUpdate _ _ _ _ seed .. | updateOnly _ _ _ _ seed .. => seed
  | lookupOnly .. => 0

def updatePercent : ModuleCall → ℤ
  | lookupRandomUpdate _ _ _ _ _ updatePercent .. | updateOnly _ _ _ _ _ updatePercent _ => updatePercent
  | lookupOnly .. => 0

def updates : ModuleCall → Bool
  | lookupRandomUpdate _ _ _ _ _ _ _ doUpdate => doUpdate
  | lookupOnly .. => false
  | updateOnly .. => true

def plan (tableKeys tableStates : Tensor) : ModuleCall → Except String Plan
  | lookupRandomUpdate queryKeys newStates _ _ seed updatePercent blockDim doUpdate => do
      let call ← LookupUpdate.lookupRandomUpdate tableKeys tableStates queryKeys newStates seed
        updatePercent blockDim doUpdate
      return ⟨call.shape, some call, call.update⟩
  | lookupOnly queryKeys _ blockDim => do
      let call ← LookupUpdate.lookupOnly tableKeys tableStates queryKeys blockDim
      return ⟨call.shape, some call, call.update⟩
  | updateOnly queryKeys newStates _ _ seed updatePercent blockDim => do
      let (shape, launch) ← LookupUpdate.updateOnly tableKeys tableStates queryKeys newStates seed
        updatePercent blockDim
      return ⟨shape, none, launch⟩

end ModuleCall

/-- A two-dimensional array. -/
def arrayOf (reqNum queryLen : ℕ) (out : ℕ → ℕ → ℤ) : List (List ℤ) :=
  (List.range reqNum).map fun r => (List.range queryLen).map (out r)

section

variable (tableKeys tableStates : Tensor)

/-- A run of a call on the table: the checks raise and nothing is launched, or the lookup
reads the table and the update then writes it. -/
def CallRun (c : ModuleCall) (states : ℕ → ℤ) (outcome : Outcome) (states' : ℕ → ℤ) : Prop :=
  match c.plan tableKeys tableStates with
  | .error message => outcome = .raised message ∧ states' = states
  | .ok plan =>
      UpdateStage plan.update c.keys c.news states states' ∧
        match plan.lookup with
        | none => outcome = .none
        | some call => ∃ outFull outFull', LookupStage call.lookup c.keys states outFull outFull' ∧
            outcome = .states (arrayOf plan.shape.reqNum plan.shape.queryLen (call.result outFull'))

inductive CallsRun : List ModuleCall → (ℕ → ℤ) → List Outcome → (ℕ → ℤ) → Prop
  | nil (states : ℕ → ℤ) : CallsRun [] states [] states
  | cons {c : ModuleCall} {cs : List ModuleCall} {states states' states'' : ℕ → ℤ}
      {outcome : Outcome} {outcomes : List Outcome}
      (h : CallRun tableKeys tableStates c states outcome states')
      (hs : CallsRun cs states' outcomes states'') :
      CallsRun (c :: cs) states (outcome :: outcomes) states''

/-- The memory with the rows of a two-dimensional array in place of the first ones. -/
def withRows (reqNum : ℕ) (rows : ℕ × ℕ → ℤ) (m : ℕ → ℤ) : ℕ → ℤ := fun a =>
  if a < reqNum * INDEX_SIZE then rows (a / INDEX_SIZE, a % INDEX_SIZE) else m a

/-- A call by the reference. -/
def expectedCall (fuel : ℕ) (c : ModuleCall) (states : ℕ → ℤ) : Option (Outcome × (ℕ → ℤ)) :=
  match c.plan tableKeys tableStates with
  | .error message => some (.raised message, states)
  | .ok ⟨shape, lookup, _⟩ => do
      let (out, expected) ← expectedLookupUpdate fuel shape.reqNum shape.queryLen
        (rowsOf INDEX_SIZE states) (rowsOf shape.queryLen c.keys) (rowsOf shape.queryLen c.news) c.seed
        c.updatePercent.toNat
      return (if lookup.isSome then .states (arrayOf shape.reqNum shape.queryLen out) else .none,
        if c.updates then withRows shape.reqNum expected states else states)

def expectedCalls (fuel : ℕ) : List ModuleCall → (ℕ → ℤ) → Option (List Outcome × (ℕ → ℤ))
  | [], states => some ([], states)
  | c :: cs, states => do
      let (outcome, states) ← expectedCall tableKeys tableStates fuel c states
      let (outcomes, states) ← expectedCalls fuel cs states
      return (outcome :: outcomes, states)

/-- A call that raises, or one with keys of the table whose number of updates fits into 32
bits. -/
def ModuleCall.Fits (c : ModuleCall) : Prop :=
  ∀ plan, c.plan tableKeys tableStates = .ok plan →
    KeysInTable plan.shape.reqNum plan.shape.queryLen c.keys ∧
      plan.shape.queryLen * c.updatePercent < 2 ^ 32

end

/-! ## One call -/

section

variable {tableKeys tableStates : Tensor} {c : ModuleCall} {plan : Plan} {fuel : ℕ}
  {states : ℕ → ℤ}

/-- What the checks of a call leave to be relied on. -/
structure Planned (tableKeys tableStates : Tensor) (c : ModuleCall) (plan : Plan) : Prop where
  guarded : Guarded plan.shape.reqNum plan.shape.queryLen
  percent : 0 ≤ c.updatePercent ∧ c.updatePercent ≤ 100
  lookup : ∀ call, plan.lookup = some call →
    call.paddedLen64 = paddedLen plan.shape.queryLen ∧
      (call.lookup = none ∧ plan.shape.queryLen = 0 ∨ 0 < plan.shape.queryLen ∧ ∃ blockDim,
        call.lookup = some ⟨clampBlockDim blockDim, plan.shape.reqNum, plan.shape.queryLen⟩)
  update : if c.updates then ∃ queryKeys newStates blockDim, UpdateCall tableKeys tableStates queryKeys
      newStates c.seed c.updatePercent blockDim plan.shape plan.update
    else plan.update = none

/-- What passes with the new states passes with the queries in their place. -/
theorem checkLookupShapes_lookupOnly {queryKeys newStates : Tensor} {shape : LookupShape}
    (h : checkLookupShapes tableKeys tableStates queryKeys newStates = .ok shape) :
    checkLookupShapes tableKeys tableStates queryKeys queryKeys = .ok shape := by
  unfold checkLookupShapes at h ⊢
  obtain ⟨_, hdim, h⟩ := Folds.ok_of_bind h
  obtain ⟨_, hsame, h⟩ := Folds.ok_of_bind h
  -- of the new states only the sizes are compared
  obtain ⟨_, _, h⟩ := Folds.ok_of_bind h
  have hnew : HbmIndex.torchCheck (queryKeys.sizes = queryKeys.sizes)
      "new_states must have the same shape as query_keys" = .ok () := torchCheck_ok.mpr rfl
  rw [hdim, hsame, hnew]
  exact h

/-- Only the message depends on the name. -/
theorem checkInt32NpuContiguous_name {t : Tensor} {name name' : String} {u : Unit}
    (h : checkInt32NpuContiguous t name = .ok u) : checkInt32NpuContiguous t name' = .ok () := by
  unfold checkInt32NpuContiguous at h ⊢
  obtain ⟨_, hdefined, h⟩ := Folds.ok_of_bind h
  obtain ⟨_, hdevice, h⟩ := Folds.ok_of_bind h
  obtain ⟨_, htype, h⟩ := Folds.ok_of_bind h
  rw [torchCheck_ok (u := ()) |>.mpr (torchCheck_ok.mp hdefined),
    torchCheck_ok (u := ()) |>.mpr (torchCheck_ok.mp hdevice),
    torchCheck_ok (u := ()) |>.mpr (torchCheck_ok.mp htype),
    torchCheck_ok (u := ()) |>.mpr (torchCheck_ok.mp h)]
  rfl

/-- What passes the checks also passes them with the keys in the place of the new states. -/
theorem checkArguments_lookupOnly {queryKeys newStates : Tensor} {updatePercent : ℤ}
    {shape : LookupShape}
    (h : checkArguments tableKeys tableStates queryKeys newStates updatePercent = .ok shape) :
    checkArguments tableKeys tableStates queryKeys queryKeys 0 = .ok shape := by
  unfold checkArguments at h ⊢
  obtain ⟨_, hkeys, h⟩ := Folds.ok_of_bind h
  obtain ⟨_, hstates, h⟩ := Folds.ok_of_bind h
  obtain ⟨_, hquery, h⟩ := Folds.ok_of_bind h
  obtain ⟨_, _, h⟩ := Folds.ok_of_bind h
  obtain ⟨_, hshape, h⟩ := Folds.ok_of_bind h
  obtain ⟨_, _, h⟩ := Folds.ok_of_bind h
  cases h
  rw [hkeys, hstates, hquery, checkInt32NpuContiguous_name hquery, checkLookupShapes_lookupOnly hshape]
  rfl

/-- A call that is not to update launches no update. -/
theorem lookupRandomUpdate_noUpdate {queryKeys newStates : Tensor} {seed updatePercent blockDim : ℤ}
    {call : Call} (h : lookupRandomUpdate tableKeys tableStates queryKeys newStates seed
      updatePercent blockDim false = .ok call) : call.update = none := by
  unfold lookupRandomUpdate at h
  obtain ⟨shape, _, h⟩ := Folds.ok_of_bind h
  cases h
  exact if_neg fun hboth => Bool.false_ne_true hboth.2.1

/-- A call that passes its checks has a percentage. -/
theorem lookupRandomUpdate_percent {queryKeys newStates : Tensor} {seed updatePercent blockDim : ℤ}
    {doUpdate : Bool} {call : Call} (h : lookupRandomUpdate tableKeys tableStates queryKeys newStates
      seed updatePercent blockDim doUpdate = .ok call) : 0 ≤ updatePercent ∧ updatePercent ≤ 100 := by
  unfold lookupRandomUpdate at h
  obtain ⟨shape, hshape, _⟩ := Folds.ok_of_bind h
  exact (checkArguments_ok hshape).2

/-- A call that plans its launches has passed its checks. -/
theorem planned (h : c.plan tableKeys tableStates = .ok plan) : Planned tableKeys tableStates c plan := by
  cases c with
  | lookupRandomUpdate queryKeys newStates keys news seed updatePercent blockDim doUpdate =>
      obtain ⟨call, hcall, h⟩ := Folds.ok_of_bind h
      cases h
      obtain ⟨hg, hpad, hlookup⟩ := lookupRandomUpdate_lookup hcall
      refine ⟨hg, lookupRandomUpdate_percent hcall, ?_, ?_⟩
      · rintro _ ⟨rfl⟩
        exact ⟨hpad, hlookup.imp_right fun hsome => ⟨hsome.1, blockDim, hsome.2⟩⟩
      · cases doUpdate with
        | true => exact ⟨queryKeys, newStates, blockDim, .lookupRandomUpdate hcall⟩
        | false => exact lookupRandomUpdate_noUpdate hcall
  | lookupOnly queryKeys keys blockDim =>
      obtain ⟨call, hcall, h⟩ := Folds.ok_of_bind h
      cases h
      unfold lookupOnly at hcall
      obtain ⟨hg, hpad, hlookup⟩ := lookupRandomUpdate_lookup hcall
      refine ⟨hg, lookupRandomUpdate_percent hcall, ?_, lookupRandomUpdate_noUpdate hcall⟩
      rintro _ ⟨rfl⟩
      exact ⟨hpad, hlookup.imp_right fun hsome => ⟨hsome.1, blockDim, hsome.2⟩⟩
  | updateOnly queryKeys newStates keys news seed updatePercent blockDim =>
      obtain ⟨⟨shape, launch⟩, hcall, h⟩ := Folds.ok_of_bind h
      cases h
      have hupdate : UpdateCall tableKeys tableStates queryKeys newStates seed updatePercent blockDim
          shape launch := .updateOnly hcall
      obtain ⟨hg, h0, hpercent, _⟩ := hupdate.cases
      refine ⟨hg, ⟨h0, hpercent⟩, ?_, queryKeys, newStates, blockDim, hupdate⟩
      rintro _ ⟨⟩

/-- The reference goes through. -/
theorem Planned.expected (h : Planned tableKeys tableStates c plan) (hfuel : 2 ^ 32 ≤ fuel)
    (states : ℕ → ℤ) : ∃ out expected,
      expectedLookupUpdate fuel plan.shape.reqNum plan.shape.queryLen (rowsOf INDEX_SIZE states)
        (rowsOf plan.shape.queryLen c.keys) (rowsOf plan.shape.queryLen c.news) c.seed
        c.updatePercent.toNat = some (out, expected) ∧
      ∀ r i, out r i =
        states (r * INDEX_SIZE + (c.keys (r * plan.shape.queryLen + i)).toNat) := by
  have hlen := h.guarded.queryLen_le
  have hpercent := h.percent
  have hle : plan.shape.queryLen ≤ fuel := by omega
  have hspec : ∀ r, ∃ ps, updatePositions fuel plan.shape.queryLen c.seed c.updatePercent.toNat r =
      some ps := fun r => by
    obtain ⟨ps, hps, _⟩ := updatePositions_spec hle
      (show c.updatePercent.toNat ≤ 100 by omega) c.seed r
    exact ⟨ps, hps⟩
  choose ps hps using hspec
  exact ⟨_, _, expectedLookupUpdate_eq fun r _ => hps r, fun _ _ => rfl⟩

/-- The update's launch leaves the table of the reference, and there is one. -/
theorem Planned.updated (h : Planned tableKeys tableStates c plan)
    (hkeys : KeysInTable plan.shape.reqNum plan.shape.queryLen c.keys)
    (hwrap : plan.shape.queryLen * c.updatePercent < 2 ^ 32) (hfuel : 2 ^ 32 ≤ fuel)
    {out : ℕ → ℕ → ℤ} {expected : ℕ × ℕ → ℤ}
    (hexp : expectedLookupUpdate fuel plan.shape.reqNum plan.shape.queryLen (rowsOf INDEX_SIZE states)
        (rowsOf plan.shape.queryLen c.keys) (rowsOf plan.shape.queryLen c.news) c.seed
        c.updatePercent.toNat = some (out, expected)) :
    (∃ states', UpdateStage plan.update c.keys c.news states states') ∧
      ∀ states', UpdateStage plan.update c.keys c.news states states' →
        states' = if c.updates then withRows plan.shape.reqNum expected states else states := by
  have hupdate := h.update
  have hlen := h.guarded.queryLen_le
  -- a call that updates, and one that does not
  by_cases hup : c.updates = true
  · rw [if_pos hup] at hupdate
    obtain ⟨queryKeys, newStates, blockDim, hcall⟩ := hupdate
    have hcast : plan.shape.queryLen * c.updatePercent =
        (plan.shape.queryLen * c.updatePercent.toNat : ℕ) := by
      rw [Nat.cast_mul, Int.toNat_of_nonneg h.percent.1]
    -- the launch runs to its end, and leaves the table of the reference
    have hspec : UpdatesAsExpected plan.shape plan.update c.seed c.updatePercent c.keys c.news states :=
      hcall.as_expected hkeys (by omega)
    refine ⟨hspec.ends, fun states' hstage => ?_⟩
    obtain ⟨out', expected', hexp', hrows, hrest⟩ := hspec.table states' hstage fuel (by omega)
    -- which is the table that this call has been compared with
    obtain ⟨_, rfl⟩ := Prod.mk.inj (Option.some.inj (hexp'.symm.trans hexp))
    rw [if_pos hup]
    funext a
    unfold withRows
    by_cases ha : a < plan.shape.reqNum * INDEX_SIZE
    · -- an address of the table, as a row and a place in it
      have hr : a / INDEX_SIZE < plan.shape.reqNum :=
        Nat.div_lt_of_lt_mul (by rw [Nat.mul_comm]; exact ha)
      have hk : a % INDEX_SIZE < INDEX_SIZE := Nat.mod_lt _ (by decide)
      have hcell := hrows _ hr _ hk
      unfold rowsOf at hcell
      rw [Nat.div_add_mod'] at hcell
      rw [if_pos ha, hcell]
    -- behind the table nothing has been written
    · rw [if_neg ha]
      exact hrest a (Nat.le_of_not_lt ha)
  -- nothing is launched, so that the table stays
  · rw [if_neg hup] at hupdate
    rw [if_neg hup, hupdate]
    exact ⟨⟨states, rfl⟩, fun states' hstage => hstage⟩

/-- The lookup's launch fills in what the reference returns, and there is one. -/
theorem Planned.looked (h : Planned tableKeys tableStates c plan)
    (hkeys : KeysInTable plan.shape.reqNum plan.shape.queryLen c.keys) {call : Call}
    (hcall : plan.lookup = some call) (states : ℕ → ℤ) :
    (∃ outFull outFull', LookupStage call.lookup c.keys states outFull outFull') ∧
      ∀ outFull outFull', LookupStage call.lookup c.keys states outFull outFull' →
        ∀ r < plan.shape.reqNum, ∀ i < plan.shape.queryLen, call.result outFull' r i =
          states (r * INDEX_SIZE + (c.keys (r * plan.shape.queryLen + i)).toNat) := by
  obtain ⟨hpad, hlookup⟩ := h.lookup call hcall
  rcases hlookup with ⟨hnone, hzero⟩ | ⟨hpos, blockDim, hsome⟩
  · -- nothing is launched, as there is no query
    rw [hnone]
    refine ⟨⟨fun _ => 0, _, rfl⟩, fun outFull outFull' _ r _ i hi => ?_⟩
    omega
  · have hblock := clampBlockDim_mem blockDim
    rw [hsome]
    refine ⟨?_, ?_⟩
    · obtain ⟨tiles, order, hrun⟩ := @exists_vecRun
        ⟨clampBlockDim blockDim, plan.shape.reqNum, plan.shape.queryLen⟩ h.guarded hblock c.keys states
      exact ⟨fun _ => 0, _, tiles, order, hrun, rfl⟩
    · rintro outFull _ ⟨tiles, order, hrun, rfl⟩ r hr i hi
      have hpadded : paddedLen plan.shape.queryLen = tilesOf plan.shape.queryLen * 64 := by
        rw [paddedLen_eq, Nat.max_eq_left hpos]
        rfl
      unfold Call.result
      rw [hpad, hpadded]
      exact hrun.out_eq h.guarded hblock hkeys outFull hr hi

/-- Only the positions of the requests are looked at. -/
theorem arrayOf_congr {reqNum queryLen : ℕ} {out out' : ℕ → ℕ → ℤ}
    (h : ∀ r < reqNum, ∀ i < queryLen, out r i = out' r i) :
    arrayOf reqNum queryLen out = arrayOf reqNum queryLen out' :=
  List.map_congr_left fun r hr => List.map_congr_left fun i hi =>
    h r (List.mem_range.mp hr) i (List.mem_range.mp hi)

/-- **One call** returns and leaves what the reference says, however it runs. -/
theorem call_spec (hc : c.Fits tableKeys tableStates) (hfuel : 2 ^ 32 ≤ fuel) (states : ℕ → ℤ) :
    ∃ outcome states', expectedCall tableKeys tableStates fuel c states = some (outcome, states') ∧
      CallRun tableKeys tableStates c states outcome states' ∧
      ∀ outcome₂ states₂, CallRun tableKeys tableStates c states outcome₂ states₂ →
        outcome₂ = outcome ∧ states₂ = states' := by
  unfold expectedCall CallRun
  cases hplan : c.plan tableKeys tableStates with
  | error message =>
      -- raised before anything is launched
      exact ⟨_, _, rfl, ⟨rfl, rfl⟩, fun _ _ h => h⟩
  | ok plan =>
      obtain ⟨hkeys, hwrap⟩ := hc plan hplan
      have hp := planned hplan
      obtain ⟨out, expected, hexp, hout⟩ := hp.expected hfuel states
      obtain ⟨⟨states', hstage⟩, huniq⟩ := hp.updated hkeys hwrap hfuel hexp
      obtain ⟨shape, lookup, update⟩ := plan
      dsimp only at hexp hout hstage huniq ⊢
      rw [huniq states' hstage] at hstage
      rw [hexp]
      cases lookup with
      | none => exact ⟨_, _, rfl, ⟨hstage, rfl⟩, fun outcome₂ states₂ h => ⟨h.2, huniq _ h.1⟩⟩
      | some call =>
          obtain ⟨⟨outFull, outFull', hlook⟩, hresult⟩ := hp.looked hkeys rfl states
          have harray : ∀ outFull outFull', LookupStage call.lookup c.keys states outFull outFull' →
              arrayOf shape.reqNum shape.queryLen (call.result outFull') =
                arrayOf shape.reqNum shape.queryLen out := fun outFull outFull' hlook =>
            arrayOf_congr fun r hr i hi =>
              (hresult outFull outFull' hlook r hr i hi).trans (hout r i).symm
          refine ⟨_, _, rfl, ⟨hstage, outFull, outFull', hlook, ?_⟩, ?_⟩
          · exact congrArg Outcome.states (harray _ _ hlook).symm
          · rintro outcome₂ states₂ ⟨hstage₂, outFull₂, outFull₂', hlook₂, rfl⟩
            exact ⟨congrArg Outcome.states (harray _ _ hlook₂), huniq _ hstage₂⟩

end

/-! ## Sequences -/

/-- **The calls on a stream.** Every sequence of calls goes through, with some of them raising;
whatever the numbers of cores and the order of their stores, each call returns what the
reference returns, and the table is the reference's. -/
theorem calls_as_expected (tableKeys tableStates : Tensor) (cs : List ModuleCall)
    (hcs : ∀ c ∈ cs, c.Fits tableKeys tableStates) (fuel : ℕ) (hfuel : 2 ^ 32 ≤ fuel)
    (states : ℕ → ℤ) :
    ∃ outcomes states',
      expectedCalls tableKeys tableStates fuel cs states = some (outcomes, states') ∧
      CallsRun tableKeys tableStates cs states outcomes states' ∧
      ∀ outcomes₂ states₂, CallsRun tableKeys tableStates cs states outcomes₂ states₂ →
        outcomes₂ = outcomes ∧ states₂ = states' := by
  induction cs generalizing states with
  | nil =>
      refine ⟨_, _, rfl, .nil states, ?_⟩
      rintro _ _ ⟨⟩
      exact ⟨rfl, rfl⟩
  | cons c cs ih =>
      -- the first call, and the others on the table that it leaves
      obtain ⟨outcome, states', hexp, hrun, huniq⟩ :=
        call_spec (hcs c List.mem_cons_self) hfuel states
      obtain ⟨outcomes, states'', hexps, hruns, huniqs⟩ :=
        ih (fun c' hc' => hcs c' (List.mem_cons_of_mem c hc')) states'
      refine ⟨outcome :: outcomes, states'', ?_, .cons hrun hruns, ?_⟩
      · rw [expectedCalls, hexp]
        show (do
          let (outcomes, states) ← expectedCalls tableKeys tableStates fuel cs states'
          return (outcome :: outcomes, states)) = _
        rw [hexps]
        rfl
      -- any other run has the same outcome, call by call
      · intro outcomes₂ states₂ hruns₂
        cases hruns₂ with
        | cons hrun₂ hrest₂ =>
            obtain ⟨rfl, rfl⟩ := huniq _ _ hrun₂
            obtain ⟨rfl, rfl⟩ := huniqs _ _ hrest₂
            exact ⟨rfl, rfl⟩

/-- A lookup, an update of seven percent, and a call with a percentage out of range. -/
theorem calls_as_expected_513 : ∃ outcomes states',
    expectedCalls ⟨true, .PrivateUse1, .kInt, true, [4, 131072]⟩
        ⟨true, .PrivateUse1, .kInt, true, [4, 131072]⟩ (2 ^ 32)
        [.lookupOnly ⟨true, .PrivateUse1, .kInt, true, [4, 513]⟩ (fun _ => 5) 8,
          .updateOnly ⟨true, .PrivateUse1, .kInt, true, [4, 513]⟩
            ⟨true, .PrivateUse1, .kInt, true, [4, 513]⟩ (fun _ => 5) (fun a => a) 2026 7 8,
          .lookupRandomUpdate ⟨true, .PrivateUse1, .kInt, true, [4, 513]⟩
            ⟨true, .PrivateUse1, .kInt, true, [4, 513]⟩ (fun _ => 5) (fun a => a) 2026 101 8 true]
        (fun _ => 0) = some (outcomes, states') ∧
      CallsRun ⟨true, .PrivateUse1, .kInt, true, [4, 131072]⟩
        ⟨true, .PrivateUse1, .kInt, true, [4, 131072]⟩
        [.lookupOnly ⟨true, .PrivateUse1, .kInt, true, [4, 513]⟩ (fun _ => 5) 8,
          .updateOnly ⟨true, .PrivateUse1, .kInt, true, [4, 513]⟩
            ⟨true, .PrivateUse1, .kInt, true, [4, 513]⟩ (fun _ => 5) (fun a => a) 2026 7 8,
          .lookupRandomUpdate ⟨true, .PrivateUse1, .kInt, true, [4, 513]⟩
            ⟨true, .PrivateUse1, .kInt, true, [4, 513]⟩ (fun _ => 5) (fun a => a) 2026 101 8 true]
        (fun _ => 0) outcomes states' := by
  -- token `5` everywhere, which is in the table
  have hkeys : ∀ {reqNum queryLen : ℕ}, KeysInTable reqNum queryLen fun _ => 5 :=
    fun _ _ => (by decide : (0 : ℤ) ≤ 5 ∧ (5 : ℤ) < 131072)
  obtain ⟨outcomes, states', hexp, hruns, _⟩ := calls_as_expected
    ⟨true, .PrivateUse1, .kInt, true, [4, 131072]⟩ ⟨true, .PrivateUse1, .kInt, true, [4, 131072]⟩
    [.lookupOnly ⟨true, .PrivateUse1, .kInt, true, [4, 513]⟩ (fun _ => 5) 8,
      .updateOnly ⟨true, .PrivateUse1, .kInt, true, [4, 513]⟩
        ⟨true, .PrivateUse1, .kInt, true, [4, 513]⟩ (fun _ => 5) (fun a => a) 2026 7 8,
      .lookupRandomUpdate ⟨true, .PrivateUse1, .kInt, true, [4, 513]⟩
        ⟨true, .PrivateUse1, .kInt, true, [4, 513]⟩ (fun _ => 5) (fun a => a) 2026 101 8 true]
    (by
      simp only [List.forall_mem_cons, List.not_mem_nil, false_imp_iff, implies_true, and_true]
      refine ⟨?_, ?_, ?_⟩
      -- the first two calls pass their checks
      · rintro _ ⟨⟩
        exact ⟨hkeys, by decide⟩
      · rintro _ ⟨⟩
        exact ⟨hkeys, by decide⟩
      -- the third one does not, so there is nothing to ask of it
      · rintro _ ⟨⟩)
    (2 ^ 32) le_rfl (fun _ => 0)
  exact ⟨outcomes, states', hexp, hruns⟩

/-! ## Both halves -/

section

variable {tableKeys tableStates queryKeys newStates : Tensor} {keys news : ℕ → ℤ}
  {seed updatePercent blockDim : ℤ} {call : Call}

/-- The lookup half of a call is the call of `lookup_only`. -/
theorem lookupOnly_of_lookupRandomUpdate (h : lookupRandomUpdate tableKeys tableStates queryKeys
      newStates seed updatePercent blockDim true = .ok call) :
    lookupOnly tableKeys tableStates queryKeys blockDim = .ok { call with update := none } := by
  unfold lookupOnly
  unfold lookupRandomUpdate at h ⊢
  obtain ⟨shape, hshape, h⟩ := Folds.ok_of_bind h
  cases h
  rw [checkArguments_lookupOnly hshape]
  refine congrArg Except.ok ?_
  simp only [Bool.false_eq_true, false_and, and_false, if_false]

/-- The update half is that of `update_only`. -/
theorem updateOnly_of_lookupRandomUpdate (h : lookupRandomUpdate tableKeys tableStates queryKeys
      newStates seed updatePercent blockDim true = .ok call) :
    updateOnly tableKeys tableStates queryKeys newStates seed updatePercent blockDim =
      .ok (call.shape, call.update) := by
  unfold updateOnly
  unfold lookupRandomUpdate at h
  obtain ⟨shape, hshape, h⟩ := Folds.ok_of_bind h
  cases h
  obtain ⟨hg, h0, hpercent⟩ := checkArguments_ok hshape
  have hlen := hg.queryLen_le
  rw [hshape]
  dsimp only
  rw [u32_natCast (show shape.queryLen < 2 ^ 32 by omega), u32_of_nonneg h0 (by omega)]
  -- `update_only` returns early where `lookup_random_update` does not launch
  by_cases hzero : shape.queryLen = 0 ∨ updatePercent = 0
  · rw [if_neg (show ¬(shape.queryLen > 0 ∧ true = true ∧ updatePercent.toNat > 0) by
      simp only [true_and]; omega)]
    exact if_pos hzero
  · rw [if_pos (show shape.queryLen > 0 ∧ true = true ∧ updatePercent.toNat > 0 by
      simp only [true_and]; omega)]
    exact if_neg hzero

/-- **Both halves.** `lookup_random_update` runs as `lookup_only` and `update_only` after it do,
on every table and with the same interleavings. -/
theorem lookup_then_update (h : lookupRandomUpdate tableKeys tableStates queryKeys newStates seed
      updatePercent blockDim true = .ok call) (states states' : ℕ → ℤ) (outcome : Outcome) :
    CallRun tableKeys tableStates
        (.lookupRandomUpdate queryKeys newStates keys news seed updatePercent blockDim true) states
        outcome states' ↔
      CallsRun tableKeys tableStates [.lookupOnly queryKeys keys blockDim,
        .updateOnly queryKeys newStates keys news seed updatePercent blockDim] states
        [outcome, .none] states' := by
  -- the plan of the one call is the plans of the two
  have hboth : (ModuleCall.lookupRandomUpdate queryKeys newStates keys news seed updatePercent
      blockDim true).plan tableKeys tableStates = .ok ⟨call.shape, some call, call.update⟩ := by
    unfold ModuleCall.plan
    dsimp only
    rw [h]
    rfl
  have hlookup : (ModuleCall.lookupOnly queryKeys keys blockDim).plan tableKeys tableStates =
      .ok ⟨call.shape, some { call with update := none }, none⟩ := by
    unfold ModuleCall.plan
    dsimp only
    rw [lookupOnly_of_lookupRandomUpdate h]
    rfl
  have hupdate : (ModuleCall.updateOnly queryKeys newStates keys news seed updatePercent
      blockDim).plan tableKeys tableStates = .ok ⟨call.shape, none, call.update⟩ := by
    unfold ModuleCall.plan
    dsimp only
    rw [updateOnly_of_lookupRandomUpdate h]
    rfl
  constructor
  · intro hrun
    unfold CallRun at hrun
    rw [hboth] at hrun
    obtain ⟨hstage, hlook⟩ := hrun
    have hfirst : CallRun tableKeys tableStates (.lookupOnly queryKeys keys blockDim) states outcome
        states := by
      unfold CallRun
      rw [hlookup]
      exact ⟨rfl, hlook⟩
    have hsecond : CallRun tableKeys tableStates
        (.updateOnly queryKeys newStates keys news seed updatePercent blockDim) states .none states' := by
      unfold CallRun
      rw [hupdate]
      exact ⟨hstage, rfl⟩
    exact .cons hfirst (.cons hsecond (.nil states'))
  · rintro (_ | ⟨hfirst, _ | ⟨hsecond, _ | _⟩⟩)
    unfold CallRun at hfirst hsecond ⊢
    rw [hlookup] at hfirst
    rw [hupdate] at hsecond
    rw [hboth]
    obtain ⟨rfl, hlook⟩ := hfirst
    exact ⟨hsecond.1, hlook⟩

end

end AsuAscend.LookupUpdate
