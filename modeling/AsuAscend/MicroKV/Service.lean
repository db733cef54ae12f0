/-
Several clients of one server.

Each client makes its calls on a connection of its own; the threads share the store
and its mutex. `sessions_apart`: clients that use different records are served as if
each were alone, no run gets stuck before every call has returned, and all runs end.
For the proof a session of its own runs beside each client, on a store that need only
agree with the shared one on the client's records (`Beside`). `clients_keep_records`
says the same of records under the coordinates of their tokens.

## Beside each client

A run of the service is not a run of a session: the store changes under a client's hands, and the
mutex is somebody else's at times. The session beside a client makes the steps of that client and
its thread and no others; its store agrees with the shared one on the client's records, and its
lock is held when the client's thread holds the real one. Steps of other clients leave it alone,
as they touch other records (`PlainMap.step_local`). The invariant of
`Session` can then be used unchanged, and the number of steps left is the sum of the sessions'.

A thread that waits for the mutex is not stuck: whoever holds it can release it.
-/
import AsuAscend.MicroKV.TokenKeys
import AsuAscend.Lib.Footprints

set_option autoImplicit false

open StreamPrograms SequentialObject RankedRuns Footprints StateExcept

namespace AsuAscend.MicroKV

/-! ## What an access looks at -/

/-- The record of an access, or all records of its type. -/
def StoreOp.cells : StoreOp → Set (UInt8 × Key)
  | put type key _ | get type key | exists_ type key => {(type, key)}
  | clear type | size type => {p | p.1 = type}

/-- An operation looks at its own cells of the map, and changes no others. -/
theorem PlainMap.step_local : Local PlainMap.step StoreOp.cells where
  frame := by
    intro o m p hp
    cases o with
    | put type key value => exact Function.update_of_ne hp _ _
    | clear type => exact if_neg hp
    | get _ _ | exists_ _ _ | size _ => rfl
  agree := by
    intro o m m' h
    cases o with
    | put type key value =>
        refine ⟨rfl, fun p hp => ?_⟩
        show Function.update m (type, key) (some value) p = Function.update m' _ _ p
        rw [show p = (type, key) from hp, Function.update_self, Function.update_self]
    | clear type => exact ⟨rfl, fun p hp => (if_pos hp).trans (if_pos hp).symm⟩
    | get type key => exact ⟨h rfl, h⟩
    | exists_ type key => exact ⟨congrArg Option.isSome (h rfl), h⟩
    | size type =>
        have hkeys : PlainMap.keys m type = PlainMap.keys m' type := by
          ext key
          show m (type, key) ≠ none ↔ m' (type, key) ≠ none
          rw [h (show (type, key).1 = type from rfl)]
        exact ⟨congrArg Set.ncard hkeys, h⟩

/-- What the accesses of some calls look at. -/
def cellsOf (calls : List Call) : Set (UInt8 × Key) :=
  { p | ∃ c ∈ calls, ∃ o ∈ c.request.items, p ∈ o.cells }

/-! ## The clients and the server -/

/-- A client with its connection and the thread that serves it. -/
structure Party extends Endpoint where
  /-- the calls that are still to be made -/
  todo : List Call
  /-- the rest of the call that is running -/
  client : Option ( ClientIO (Except ClientError Outcome))
  /-- what the running call has received -/
  hearing : Bytes
  /-- what each finished call received -/
  heard : List Bytes
  /-- what each finished call returned -/
  returned : List (Except ClientError Outcome)
  /-- what the server's current turn has received -/
  reading : Bytes
  /-- what each finished turn of the server received -/
  read : List Bytes

namespace Party

def start (calls : List Call) : Party where
  up := []
  server := handleClientTurn
  down := []
  todo := calls
  client := none
  hearing := []
  heard := []
  returned := []
  reading := []
  read := []

/-- After a step of the thread. -/
def advance (p : Party) (label : Label) (e : Endpoint) : Party :=
  match label with
  | .nextTurn => { p with toEndpoint := e, reading := [], read := p.read ++ [p.reading] }
  | _ => { p with
      toEndpoint := e, reading := p.reading ++ p.up.take (p.up.length - e.up.length) }

/-- A step of the client. -/
inductive Acts (self : KVStoreClient) : Party → Party → Prop
  | call {p : Party} {c : Call} {calls : List Call} (hclient : p.client = none)
      (htodo : p.todo = c :: calls) :
      Acts self p { p with client := some (c.program self).run, todo := calls }
  | send {p : Party} {data : Bytes} {next} (c : ℕ+) (hclient : p.client = some (.send data next))
      (hlen : (c : ℕ) ≤ data.length) :
      Acts self p { p with client := some (next (some c)), up := p.up ++ data.take c }
  | recv {p : Party} {max : ℕ} {next} (c : ℕ) (hclient : p.client = some (.recv max next))
      (hpos : 0 < c) (hmax : c ≤ max) (hdown : c ≤ p.down.length) :
      Acts self p { p with
        client := some (next (some (p.down.take c))), down := p.down.drop c,
        hearing := p.hearing ++ p.down.take c }
  | finish {p : Party} {a} (hclient : p.client = some (.ret a)) :
      Acts self p { p with
        client := none, returned := p.returned ++ [a], heard := p.heard ++ [p.hearing],
        hearing := [] }

end Party

structure Service (ι : Type) where
  party : ι → Party
  shared : Shared ι

namespace Service

variable {ι : Type} [DecidableEq ι]

/-- All clients are connected to a new server. -/
def start (calls : ι → List Call) : Service ι where
  party := fun i => Party.start (calls i)
  shared := ⟨KVStore.empty, none⟩

inductive Step (self : ι → KVStoreClient) : Service ι → Service ι → Prop
  | client {w : Service ι} (i : ι) {p : Party} (h : Party.Acts (self i) (w.party i) p) :
      Step self w { w with party := Function.update w.party i p }
  | thread {w : Service ι} (i : ι) {label : Label} {e : Endpoint} {sh : Shared ι}
      (h : ThreadStep i false (w.party i).toEndpoint w.shared label e sh) :
      Step self w ⟨Function.update w.party i ((w.party i).advance label e), sh⟩

def Reaches (self : ι → KVStoreClient) : Service ι → Service ι → Prop :=
  Relation.ReflTransGen (Step self)

end Service

/-! ## A session beside each client -/

/-- The client with a server of its own. -/
def Party.alone (p : Party) (own : Shared Unit) : Session where
  toEndpoint := p.toEndpoint
  todo := p.todo
  client := p.client
  hearing := p.hearing
  heard := p.heard
  returned := p.returned
  reading := p.reading
  read := p.read
  shared := own

/-- A step of the thread, seen by the party alone. -/
theorem Party.alone_advance (p : Party) (label : Label) (e : Endpoint) (own own' : Shared Unit) :
    (p.advance label e).alone own' = (p.alone own).advance label e own' := by
  cases label <;> rfl

theorem Party.Acts.alone {self : KVStoreClient} {p p' : Party} (h : Party.Acts self p p')
    (own : Shared Unit) : Session.Step self (p.alone own) (p'.alone own) := by
  cases h with
  | call hclient htodo => exact .call (s := p.alone own) hclient htodo
  | send c hclient hlen => exact .send (s := p.alone own) c hclient hlen
  | recv c hclient hpos hmax hdown => exact .recv (s := p.alone own) c hclient hpos hmax hdown
  | finish hclient => exact .finish (s := p.alone own) hclient

section Simulation

variable {ι : Type} {i j : ι} {V W : Set (UInt8 × Key)} {sh sh' : Shared ι} {own own' : Shared Unit}
  {closed : Bool} {e e' : Endpoint} {label : Label}

/-- The stores agree on the records `V` of client `i`, and its thread holds the mutex of the one
if it holds that of the other. -/
structure Beside (i : ι) (V : Set (UInt8 × Key)) (sh : Shared ι) (own : Shared Unit) : Prop where
  agree : Set.EqOn own.store.view sh.store.view V
  held : ∀ found, sh.lock = some (i, found) →
    found = sh.store ∧ own.lock = some ((), own.store)
  free : (∀ found, sh.lock ≠ some (i, found)) → own.lock = none

/-- A step of the thread of `i` is one of its own session. -/
theorem Beside.thread (h : Beside i V sh own) (hstep : ThreadStep i closed e sh label e' sh')
    (hcells : ∀ o next, e.server = .op o next → o.cells ⊆ V) :
    ∃ own', ThreadStep () closed e own label e' own' ∧ Beside i V sh' own' := by
  cases hstep with
  | recv c hserver hpos hmax hup => exact ⟨own, .recv c hserver hpos hmax hup, h⟩
  | recvEnds hserver hclosed hup => exact ⟨own, .recvEnds hserver hclosed hup, h⟩
  | recvFails hserver hclosed => exact ⟨own, .recvFails hserver hclosed, h⟩
  | send c hserver hlen => exact ⟨own, .send c hserver hlen, h⟩
  | sendFails hserver hclosed => exact ⟨own, .sendFails hserver hclosed, h⟩
  | turn hserver => exact ⟨own, .turn hserver, h⟩
  | lock hserver hfree =>
      have hown : own.lock = none := h.free fun found hheld => by rw [hfree] at hheld; cases hheld
      refine ⟨_, .lock hserver hown, h.agree, ?_, fun hne => absurd rfl (hne _)⟩
      rintro _ ⟨⟩
      exact ⟨rfl, rfl⟩
  | @unlock o next found hserver hheld =>
      obtain ⟨rfl, hown⟩ := h.held _ hheld
      -- on the client's records the access does the same to both stores
      obtain ⟨hres, hview⟩ := PlainMap.step_local.within (hcells o next hserver) h.agree
      rw [(store_views o _).1, (store_views o _).1] at hres
      rw [(store_views o _).2, (store_views o _).2] at hview
      have hunlock : ThreadStep () closed e own _ _ _ := .unlock hserver hown
      rw [hres] at hunlock
      refine ⟨_, hunlock, hview, ?_, fun _ => rfl⟩
      rintro found ⟨⟩

/-- A step of the thread of another client is none of its session. -/
theorem Beside.others (h : Beside i V sh own) (hj : Beside j W sh own') (hne : j ≠ i)
    (hstep : ThreadStep j closed e sh label e' sh')
    (hcells : ∀ o next, e.server = .op o next → ∀ p ∈ o.cells, p ∉ V) : Beside i V sh' own := by
  cases hstep with
  | recv _ _ _ _ _ | recvEnds _ _ _ | recvFails _ _ | send _ _ _ | sendFails _ _ | turn _ => exact h
  | lock hserver hfree =>
      refine ⟨h.agree, ?_, ?_⟩
      · intro found hheld
        exact absurd (congrArg Prod.fst (Option.some.inj hheld)) hne
      · intro _
        exact h.free fun found hheld => by rw [hfree] at hheld; cases hheld
  | @unlock o next found hserver hheld =>
      -- it has locked the store as it is, and leaves the records of `i` alone
      obtain ⟨rfl, _⟩ := hj.held _ hheld
      have hview := PlainMap.step_local.apart (m := sh.store.view) (hcells o next hserver)
      rw [(store_views o _).2] at hview
      refine ⟨h.agree.trans hview.symm, ?_, ?_⟩
      · rintro found ⟨⟩
      · intro _
        refine h.free fun found hi => hne ?_
        rw [hheld] at hi
        exact congrArg Prod.fst (Option.some.inj hi)

/-- What its session can do the thread of `i` can do, unless another thread holds the mutex. -/
theorem Beside.goes_on (h : Beside i V sh own) (hstep : ThreadStep () closed e own label e' own') :
    (∃ label' e'' sh', ThreadStep i closed e sh label' e'' sh') ∨
      ∃ j found, sh.lock = some (j, found) := by
  cases hstep with
  | recv c hserver hpos hmax hup => exact Or.inl ⟨_, _, _, .recv c hserver hpos hmax hup⟩
  | recvEnds hserver hclosed hup => exact Or.inl ⟨_, _, _, .recvEnds hserver hclosed hup⟩
  | recvFails hserver hclosed => exact Or.inl ⟨_, _, _, .recvFails hserver hclosed⟩
  | send c hserver hlen => exact Or.inl ⟨_, _, _, .send c hserver hlen⟩
  | sendFails hserver hclosed => exact Or.inl ⟨_, _, _, .sendFails hserver hclosed⟩
  | turn hserver => exact Or.inl ⟨_, _, _, .turn hserver⟩
  | lock hserver _ =>
      cases hlock : sh.lock with
      | none => exact Or.inl ⟨_, _, _, .lock hserver hlock⟩
      | some holder => exact Or.inr ⟨holder.1, holder.2, rfl⟩
  | unlock hserver hheld =>
      cases hlock : sh.lock with
      | none =>
          rw [h.free fun found hi => by rw [hlock] at hi; cases hi] at hheld
          cases hheld
      | some holder => exact Or.inr ⟨holder.1, holder.2, rfl⟩

end Simulation

/-! ## Every step -/

section Sessions

variable {calls : List Call} {s : Session} {n : ℕ}

/-- The server only makes accesses of the calls. -/
theorem Session.Inv.cells (h : Session.Inv calls n s) {o : StoreOp}
    {next : o.Res → Server (Option Bool)} (hserver : s.server = .op o next) :
    o.cells ⊆ cellsOf calls := by
  cases h with
  | idle _ _ _ _ h _ => exact absurd hserver (h.server_ne nofun nofun)
  | @busy _ before c _ _ _ _ _ _ _ hcalls _ _ _ h _ =>
      obtain ⟨hmeets, _⟩ := h.active (by rw [hserver]; exact fun hc => by cases hc) fun hturn => by
        rw [hserver] at hturn
        exact absurd hturn.symm (handleClientTurn_ne fun _ _ hrecv => by cases hrecv)
      rw [hserver] at hmeets
      obtain ⟨_, rest, htodo, _⟩ := hmeets
      -- the accesses made and those still to be made are the items of the request
      have hitems := congrArg (List.map Sigma.fst) h.acts
      rw [Call.acts, map_fst_trace, List.map_append, map_fst_trace, htodo] at hitems
      have ho : o ∈ c.request.items := by
        rw [hitems]
        exact List.mem_append_right _ List.mem_cons_self
      have hc : c ∈ calls := by
        rw [hcalls]
        exact List.mem_append_right _ List.mem_cons_self
      exact fun p hp => ⟨c, hc, o, ho, hp⟩

/-- The mutex is only held for an access. -/
theorem Session.Inv.holds (h : Session.Inv calls n s) {found : KVStore}
    (hlock : s.shared.lock = some ((), found)) :
    ∃ (o : StoreOp) (next : o.Res → Server (Option Bool)), s.server = .op o next := by
  cases h with
  | idle _ _ _ _ h _ =>
      rw [h.lock] at hlock
      cases hlock
  | busy _ _ _ _ h _ =>
      cases h.lock with
      | free hfree =>
          rw [hfree] at hlock
          cases hlock
      | held hserver _ => exact ⟨_, _, hserver⟩

end Sessions

namespace Service

variable {ι : Type} {self : ι → KVStoreClient} {calls : ι → List Call} {w : Service ι}

/-- Client `i` has `n` steps at most left. -/
def Part (calls : ι → List Call) (i : ι) (n : ℕ) (w : Service ι) : Prop :=
  ∃ own, Beside i (cellsOf (calls i)) w.shared own ∧
    Session.Inv (calls i) n ((w.party i).alone own)

/-- No two clients use the same records. -/
def Separate (calls : ι → List Call) : Prop :=
  Pairwise fun i j => ∀ p ∈ cellsOf (calls i), p ∉ cellsOf (calls j)

/-- At the start every party has its whole way before it. -/
theorem part_start (i : ι) (h : Within PlainMap.empty (calls i)) :
    Part calls i (cost PlainMap.empty (calls i)) (start calls) := by
  refine ⟨⟨KVStore.empty, none⟩, ⟨fun _ _ => rfl, ?_, fun _ => rfl⟩, Session.inv_start h⟩
  rintro found ⟨⟩

variable [DecidableEq ι]

/-- **A step of the service** is one of some party, and lowers that party's rank and no other. -/
theorem eachLowers (hself : ∀ i, (self i).connected = true) (hapart : Separate calls) [Fintype ι] :
    EachLowers (Step self) (Part calls) := by
  intro left w w' hparts hstep
  cases hstep with
  | @client i p hacts =>
      -- a client's action does not touch the store
      obtain ⟨own, hbeside, hinv⟩ := hparts i
      refine ⟨i, ?_, ?_⟩
      · obtain ⟨n, hlt, hn⟩ := Session.inv_lowers (hself i) _ _ _ hinv (hacts.alone own)
        refine ⟨n, hlt, own, hbeside, ?_⟩
        dsimp only
        rw [Function.update_self]
        exact hn
      · intro j hj
        obtain ⟨own', hbeside', hinv'⟩ := hparts j
        refine ⟨own', hbeside', ?_⟩
        dsimp only
        rw [Function.update_of_ne hj]
        exact hinv'
  | @thread i label e sh hthread =>
      obtain ⟨own, hbeside, hinv⟩ := hparts i
      refine ⟨i, ?_, ?_⟩
      · obtain ⟨own', hown, hbeside'⟩ := hbeside.thread hthread fun o next => hinv.cells
        obtain ⟨n, hlt, hn⟩ := Session.inv_lowers (hself i) _ _ _ hinv (.thread hown)
        refine ⟨n, hlt, own', hbeside', ?_⟩
        dsimp only
        rw [Function.update_self, Party.alone_advance _ _ _ own]
        exact hn
      · intro j hj
        -- the access is to cells of another part
        obtain ⟨own', hbeside', hinv'⟩ := hparts j
        refine ⟨own', hbeside'.others hbeside hj.symm hthread ?_, ?_⟩
        · intro o next hserver p hp
          exact hapart hj.symm p (hinv.cells hserver hp)
        · dsimp only
          rw [Function.update_of_ne hj]
          exact hinv'

/-- The service goes on until every call has returned. -/
theorem progress (hparts : ∀ i, ∃ n, Part calls i n w) :
    (∃ w', Step self w w') ∨ ∀ i, (w.party i).returned = (PlainMap.outcomes (calls i)).map .ok := by
  by_cases hall : ∀ i, (w.party i).returned = (PlainMap.outcomes (calls i)).map .ok
  · exact Or.inr hall
  left
  obtain ⟨i, hi⟩ := not_forall.mp hall
  obtain ⟨n, own, hbeside, hinv⟩ := hparts i
  have hsession : (∃ s, Session.Step (self i) ((w.party i).alone own) s) ∨ _ := hinv.progress
  -- what the client can do alone it can do here, unless its thread waits for the mutex
  rcases hsession with ⟨s, hstep⟩ | hdone
  · generalize ha : (w.party i).alone own = a at hstep
    cases hstep with
    | call hclient htodo =>
        subst ha
        exact ⟨_, .client i (.call hclient htodo)⟩
    | send c hclient hlen =>
        subst ha
        exact ⟨_, .client i (.send c hclient hlen)⟩
    | recv c hclient hpos hmax hdown =>
        subst ha
        exact ⟨_, .client i (.recv c hclient hpos hmax hdown)⟩
    | finish hclient =>
        subst ha
        exact ⟨_, .client i (.finish hclient)⟩
    | thread hthread =>
        subst ha
        rcases hbeside.goes_on hthread with ⟨label, e, sh, hstep⟩ | ⟨j, found, hlock⟩
        · exact ⟨_, .thread i hstep⟩
        · -- whoever holds the mutex is at an access, and can make it
          obtain ⟨m, own', hbeside', hinv'⟩ := hparts j
          obtain ⟨o, next, hserver⟩ := hinv'.holds (hbeside'.held found hlock).2
          exact ⟨_, .thread j (.unlock hserver hlock)⟩
  · exact absurd hdone hi

end Service

/-! ## Apart -/

/-- A client is served as if it were alone. -/
structure ServedAlone {ι : Type} (calls : List Call) (w : Service ι) (i : ι) : Prop where
  /-- each turn of its thread has read exactly one request, -/
  requests : (w.party i).read <+: calls.map fun c => c.request.encode
  /-- each call has read exactly its response -/
  responses : (w.party i).heard <+: PlainMap.responses calls
  /-- and returned what a map of its own returns, -/
  returned : (w.party i).returned <+: (PlainMap.outcomes calls).map .ok
  /-- and between two calls nothing is on its way and the store has its records -/
  between : (w.party i).client = none → (w.party i).up = [] ∧ (w.party i).down = [] ∧
    Set.EqOn w.shared.store.view (PlainMap.run (calls.take (w.party i).returned.length))
      (cellsOf calls)

namespace Service

variable {ι : Type} {self : ι → KVStoreClient} {calls : ι → List Call} {w : Service ι}

/-- What a party has been served is what it would have been served alone. -/
theorem Part.servedAlone {i : ι} {n : ℕ} (h : Part calls i n w) : ServedAlone (calls i) w i := by
  obtain ⟨own, hbeside, hinv⟩ := h
  have hstep := hinv.inStep
  refine ⟨hstep.requests, hstep.responses, hstep.returned, fun hclient => ?_⟩
  obtain ⟨hup, hdown, hview⟩ := hstep.between hclient
  have hrun : own.store.view = PlainMap.run ((calls i).take (w.party i).returned.length) := hview
  exact ⟨hup, hdown, hrun ▸ hbeside.agree.symm⟩

variable [Fintype ι] [DecidableEq ι]

/-- What the run keeps, and a bound on its steps. -/
theorem kept (hself : ∀ i, (self i).connected = true)
    (hwithin : ∀ i, Within PlainMap.empty (calls i)) (hapart : Separate calls) :
    Acc (fun w' w => Step self w w') (start calls) ∧
      ∀ w, Reaches self (start calls) w → ∀ i, ∃ n, Part calls i n w := by
  have hlowers := (eachLowers hself hapart).lowers
  have hstart : AllParts (Part calls) _ (start calls) :=
    ⟨_, rfl, fun i => part_start i (hwithin i)⟩
  refine ⟨hlowers.acc hstart, fun w hw => ?_⟩
  obtain ⟨_, left, _, hparts⟩ := hlowers.reaches hstart hw
  exact fun i => ⟨left i, hparts i⟩

omit [Fintype ι] in
/-- Nothing but the records of the clients is stored. -/
theorem stored (hkept : ∀ w, Reaches self (start calls) w → ∀ i, ∃ n, Part calls i n w)
    (hw : Reaches self (start calls) w) (p : UInt8 × Key) (hp : ∀ i, p ∉ cellsOf (calls i)) :
    w.shared.store.view p = none := by
  induction hw with
  | refl => exact congrFun KVStore.view_empty p
  | @tail w w' hw hstep ih =>
      cases hstep with
      | client _ _ => exact ih
      | @thread i label e sh hthread =>
          obtain ⟨n, own, hbeside, hinv⟩ := hkept w hw i
          generalize hsh : w.shared = sh0 at hthread
          cases hthread with
          | recv _ _ _ _ _ | recvEnds _ _ _ | recvFails _ _ | send _ _ _ | sendFails _ _ | turn _
          | lock _ _ => exact hsh ▸ ih
          | @unlock o next found hserver hheld =>
              obtain ⟨rfl, _⟩ := hbeside.held _ (hsh ▸ hheld)
              show (KVStore.step o w.shared.store).2.view p = none
              rw [← (store_views o _).2,
                PlainMap.step_local.frame _ _ _ fun hcell => hp i (hinv.cells hserver hcell)]
              exact ih

end Service

/-- Clients that use different records are served as if each were alone, whatever the order of
their steps and of those of the threads: the store has their records and nothing
else, no run gets stuck before every call has returned, and every run ends. -/
theorem sessions_apart {ι : Type} [Fintype ι] [DecidableEq ι] {self : ι → KVStoreClient}
    {calls : ι → List Call} (hself : ∀ i, (self i).connected = true)
    (hwithin : ∀ i, Within PlainMap.empty (calls i)) (hapart : Service.Separate calls) :
    (∀ w, Service.Reaches self (Service.start calls) w →
      (∀ i, ServedAlone (calls i) w i) ∧
        (∀ p, (∀ i, p ∉ cellsOf (calls i)) → w.shared.store.view p = none) ∧
        ((∃ w', Service.Step self w w') ∨
          ∀ i, (w.party i).returned = (PlainMap.outcomes (calls i)).map .ok)) ∧
    Acc (fun w' w => Service.Step self w w') (Service.start calls) := by
  obtain ⟨hends, hkept⟩ := Service.kept hself hwithin hapart
  refine ⟨fun w hw => ⟨fun i => ?_, Service.stored hkept hw, Service.progress (hkept w hw)⟩, hends⟩
  obtain ⟨n, hpart⟩ := hkept w hw i
  exact hpart.servedAlone

/-- Two clients that store under the same key, with different types. -/
def twoClients : Bool → List Call
  | false => [.put 1 (List.replicate 32 0) [7], .exists_ 1 (List.replicate 32 0)]
  | true => [.clear 2, .put 2 (List.replicate 32 0) [8]]

theorem sessions_apart_twoClients :
    (∀ w, Service.Reaches (fun _ => ⟨true⟩) (Service.start twoClients) w →
      (∀ i, ServedAlone (twoClients i) w i) ∧
        (∀ p, (∀ i, p ∉ cellsOf (twoClients i)) → w.shared.store.view p = none) ∧
        ((∃ w', Service.Step (fun _ => ⟨true⟩) w w') ∨
          ∀ i, (w.party i).returned = (PlainMap.outcomes (twoClients i)).map .ok)) ∧
    Acc (fun w' w => Service.Step (fun _ => ⟨true⟩) w w') (Service.start twoClients) := by
  apply sessions_apart fun _ => rfl
  -- the calls of either client are within the limits
  · intro i
    cases i with
    | false =>
        refine ⟨⟨⟨by decide, by decide, by decide, trivial⟩, by decide, by decide, ?_, trivial⟩,
          ⟨⟨by decide, by decide, by decide, trivial⟩, by decide, by decide, ?_, trivial⟩, trivial⟩
        · show ([] : Bytes).length < 2 ^ 32
          decide
        · show 1 < 2 ^ 32
          decide
    | true =>
        refine ⟨⟨⟨by decide, by decide, by decide, trivial⟩, by decide, by decide, ?_, trivial⟩,
          ⟨⟨by decide, by decide, by decide, trivial⟩, by decide, by decide, ?_, trivial⟩, trivial⟩
        · show ([] : Bytes).length < 2 ^ 32
          decide
        · show ([] : Bytes).length < 2 ^ 32
          decide
  · -- one client has the records of type 1, the other those of type 2
    have htype : ∀ {i p}, p ∈ cellsOf (twoClients i) → p.1 = if i then 2 else 1 := by
      rintro (_ | _) p ⟨c, hc, o, ho, hp⟩
      · rcases List.mem_pair.mp hc with rfl | rfl
        · rw [List.mem_singleton.mp ho] at hp
          exact congrArg Prod.fst hp
        · rw [List.mem_singleton.mp ho] at hp
          exact congrArg Prod.fst hp
      · rcases List.mem_pair.mp hc with rfl | rfl
        · rw [List.mem_singleton.mp ho] at hp
          exact hp
        · rw [List.mem_singleton.mp ho] at hp
          exact congrArg Prod.fst hp
    intro i j hij p hi hj
    refine hij ?_
    have heq := (htype hi).symm.trans (htype hj)
    cases i <;> cases j <;> first | rfl | exact absurd heq (by decide)

/-! ## Records of different tokens -/

/-- Whether the call acts on all records of its type. -/
def Call.wholeType : Call → Bool
  | clear _ | size _ => true
  | _ => false

/-- The cells of a call: those of its keys, or all of its type. -/
theorem Call.mem_cells_iff {c : Call} (hc : c.Accepted) {p : UInt8 × Key} :
    (∃ o ∈ c.request.items, p ∈ o.cells) ↔
      p.1 = typeByte c.cacheType ∧ (c.wholeType = true ∨ ∃ key ∈ c.keys, p.2 = Key.ofBytes key) := by
  obtain ⟨_, _, _, hlen⟩ := hc
  cases c with
  -- one key, the whole type, and a list of keys
  | put _ _ _ | get _ _ | exists_ _ _ =>
      simp [request, Request.items, StoreOp.cells, wholeType, keys, cacheType, Prod.ext_iff]
  | clear _ | size _ =>
      simp [request, Request.items, StoreOp.cells, wholeType, keys, cacheType]
  | batchGet type keys | batchExists type keys =>
      constructor
      · rintro ⟨o, ho, hp⟩
        obtain ⟨_, hpadded, rfl⟩ := List.mem_map.mp ho
        obtain ⟨key, hkey, rfl⟩ := List.mem_map.mp hpadded
        exact ⟨congrArg Prod.fst hp, Or.inr ⟨key, hkey, congrArg Prod.snd hp⟩⟩
      · rintro ⟨htype, hwhole | ⟨key, hkey, hp⟩⟩
        · cases hwhole
        · exact ⟨_, List.mem_map_of_mem (List.mem_map_of_mem hkey), Prod.ext htype hp⟩
  | batchPut type keys values =>
      constructor
      · rintro ⟨o, ho, hp⟩
        obtain ⟨item, hitem, rfl⟩ := List.mem_map.mp ho
        obtain ⟨key, hkey, hkey'⟩ := List.mem_map.mp (List.of_mem_zip hitem).1
        exact ⟨congrArg Prod.fst hp,
          Or.inr ⟨key, hkey, (congrArg Prod.snd hp).trans hkey'.symm⟩⟩
      · rintro ⟨htype, hwhole | ⟨key, hkey, hp⟩⟩
        · cases hwhole
        · -- there is a value for every key
          have hfst : ((keys.map Key.ofBytes).zip values).map Prod.fst = keys.map Key.ofBytes :=
            List.map_fst_zip (by rw [List.length_map]; exact hlen.le)
          obtain ⟨item, hitem, hitem'⟩ := List.mem_map.mp (hfst ▸ List.mem_map_of_mem hkey)
          exact ⟨_, List.mem_map_of_mem hitem, Prod.ext htype (hp.trans hitem'.symm)⟩

namespace TokenCall

def cacheType : TokenCall → ℤ
  | put cacheType .. | get cacheType .. | exists_ cacheType .. | batchPut cacheType ..
  | batchGet cacheType .. | batchExists cacheType .. | clear cacheType | size cacheType => cacheType

def wholeType : TokenCall → Bool
  | clear _ | size _ => true
  | _ => false

/-- The calls are about different types, or about different tokens. -/
def Apart (c c' : TokenCall) : Prop :=
  c.cacheType = c'.cacheType →
    c.wholeType = false ∧ c'.wholeType = false ∧ List.Disjoint c.tokens c'.tokens

/-- A call on tokens that is accepted is the call on their keys. -/
theorem call_eq_ok {c : TokenCall} {c' : Call} (hc : c.call = .ok c') :
    c'.cacheType = c.cacheType ∧ c'.wholeType = c.wholeType ∧
      c'.keys.map Key.ofBytes = c.tokens.map Coordinates.keyOf := by
  cases c with
  | put _ token _ | get _ token | exists_ _ token =>
      obtain ⟨key, hkey, h⟩ := except_bind_eq_ok hc
      cases h
      exact ⟨rfl, rfl, congrArg (fun k => [k]) (token.keyOf_eq hkey).symm⟩
  | batchPut _ _ _ | batchGet _ _ | batchExists _ _ =>
      obtain ⟨keys, hkeys, h⟩ := except_bind_eq_ok hc
      cases h
      exact ⟨rfl, rfl, (map_keyOf hkeys).symm⟩
  | clear _ | size _ =>
      cases hc
      exact ⟨rfl, rfl, rfl⟩

end TokenCall

/-- A client of several has its records, as if it were alone. -/
structure ServedRecords {ι : Type} (tokenCalls : List TokenCall) (w : Service ι) (i : ι) : Prop where
  /-- each call has returned what it returns on records of its own, -/
  returned : (w.party i).returned <+: (RecordMap.outcomes tokenCalls).map .ok
  /-- and between two calls the store has these records -/
  stored : (w.party i).client = none → ∀ c ∈ tokenCalls, ∀ token ∈ c.tokens,
    w.shared.store.view (place (c.cacheType, token)) =
      RecordMap.run (tokenCalls.take (w.party i).returned.length) (c.cacheType, token)

section Records

variable {tokenCalls : List TokenCall} {calls : List Call}

/-- The calls of a list, one by one. -/
theorem mem_of_mapM (hcalls : tokenCalls.mapM TokenCall.call = .ok calls) :
    (∀ c' ∈ calls, ∃ c ∈ tokenCalls, c.call = .ok c') ∧
      ∀ c ∈ tokenCalls, ∃ c' ∈ calls, c.call = .ok c' := by
  have hmade := except_mapM_eq_ok hcalls
  refine ⟨fun c' hc' => ?_, fun c hc => ?_⟩
  · obtain ⟨n, hn, rfl⟩ := List.mem_iff_getElem.mp hc'
    exact ⟨_, List.getElem_mem (hmade.length_eq ▸ hn), hmade.get (hmade.length_eq ▸ hn) hn⟩
  · obtain ⟨n, hn, rfl⟩ := List.mem_iff_getElem.mp hc
    exact ⟨_, List.getElem_mem (hmade.length_eq ▸ hn), hmade.get hn (hmade.length_eq ▸ hn)⟩

/-- What the calls with the keys made look at. -/
theorem mem_cellsOf_iff (hcalls : tokenCalls.mapM TokenCall.call = .ok calls)
    (haccepted : ∀ c ∈ calls, c.Accepted) {p : UInt8 × Key} :
    p ∈ cellsOf calls ↔ ∃ c ∈ tokenCalls, (0 ≤ c.cacheType ∧ c.cacheType ≤ 0xFF) ∧
      p.1 = typeByte c.cacheType ∧ (c.wholeType = true ∨ ∃ token ∈ c.tokens, p.2 = token.keyOf) := by
  obtain ⟨hto, hfrom⟩ := mem_of_mapM hcalls
  -- a key of the call is the key of one of its tokens
  have hcell : ∀ {c : TokenCall} {c' : Call}, c.call = .ok c' → c'.Accepted →
      ((∃ o ∈ c'.request.items, p ∈ o.cells) ↔ p.1 = typeByte c.cacheType ∧
        (c.wholeType = true ∨ ∃ token ∈ c.tokens, p.2 = token.keyOf)) := by
    intro c c' hc hc'
    obtain ⟨htype, hwhole, hkeys⟩ := TokenCall.call_eq_ok hc
    have hmem : (∃ key ∈ c'.keys, p.2 = Key.ofBytes key) ↔ ∃ token ∈ c.tokens, p.2 = token.keyOf := by
      have hiff : p.2 ∈ c'.keys.map Key.ofBytes ↔ p.2 ∈ c.tokens.map Coordinates.keyOf := by
        rw [hkeys]
      simpa only [List.mem_map, eq_comm] using hiff
    rw [Call.mem_cells_iff hc', htype, hwhole, hmem]
  constructor
  · rintro ⟨c', hc', hp⟩
    obtain ⟨c, hc, hcall⟩ := hto c' hc'
    obtain ⟨h0, h1, _⟩ := haccepted c' hc'
    rw [(TokenCall.call_eq_ok hcall).1] at h0 h1
    exact ⟨c, hc, ⟨h0, h1⟩, (hcell hcall (haccepted c' hc')).mp hp⟩
  · rintro ⟨c, hc, _, hp⟩
    obtain ⟨c', hc', hcall⟩ := hfrom c hc
    exact ⟨c', hc', (hcell hcall (haccepted c' hc')).mpr hp⟩

end Records

section

variable {ι : Type} {self : ι → KVStoreClient} {tokenCalls : ι → List TokenCall}
  {calls : ι → List Call}

/-- The tokens that any of the clients names. -/
def allTokens (tokenCalls : ι → List TokenCall) : Set Coordinates :=
  { token | ∃ i, token ∈ tokensOf (tokenCalls i) }

/-- Clients that are apart on tokens are apart on cells, if the tokens used can be told apart by
their keys. -/
theorem separate_of_apart (hcalls : ∀ i, (tokenCalls i).mapM TokenCall.call = .ok (calls i))
    (haccepted : ∀ i, ∀ c ∈ calls i, c.Accepted) (htold : ToldApart (allTokens tokenCalls))
    (hapart : Pairwise fun i j => ∀ c ∈ tokenCalls i, ∀ c' ∈ tokenCalls j, c.Apart c') :
    Service.Separate calls := by
  have hinj : Set.InjOn place (recordsOf (allTokens tokenCalls)) := by
    apply place_injOn _ htold
    rintro token ⟨i, c, hc, htoken⟩
    obtain ⟨c', _, hcall⟩ := (mem_of_mapM (hcalls i)).2 c hc
    exact TokenCall.inRange_of_call hcall token htoken
  intro i j hij p hi hj
  obtain ⟨c, hc, hrange, htype, hcell⟩ := (mem_cellsOf_iff (hcalls i) (haccepted i)).mp hi
  obtain ⟨c', hc', hrange', htype', hcell'⟩ := (mem_cellsOf_iff (hcalls j) (haccepted j)).mp hj
  -- one place in the store is of one type
  have hsame : c.cacheType = c'.cacheType :=
    typeByte_inj hrange.1 hrange.2 hrange'.1 hrange'.2 (htype.symm.trans htype')
  obtain ⟨hwhole, hwhole', hdisjoint⟩ := hapart hij c hc c' hc' hsame
  rw [hwhole] at hcell
  rw [hwhole'] at hcell'
  obtain ⟨token, htoken, hkey⟩ := hcell.resolve_left Bool.false_ne_true
  obtain ⟨token', htoken', hkey'⟩ := hcell'.resolve_left Bool.false_ne_true
  have hplace : place (c.cacheType, token) = place (c.cacheType, token') :=
    Prod.ext rfl (hkey.symm.trans hkey')
  have htokens := (Prod.mk.inj (hinj ⟨hrange, i, c, hc, htoken⟩ ⟨hrange, j, c', hc', htoken'⟩
    hplace)).2
  exact hdisjoint htoken (htokens ▸ htoken')

/-- Clients whose calls are about different tokens or different types, with names that the
halves of their digests tell apart: each call returns what it returns on records of its
client alone, no run gets stuck before every call has returned, and every run ends. -/
theorem clients_keep_records [Fintype ι] [DecidableEq ι] (hself : ∀ i, (self i).connected = true)
    (hcalls : ∀ i, (tokenCalls i).mapM TokenCall.call = .ok (calls i))
    (htold : ToldApart (allTokens tokenCalls))
    (hapart : Pairwise fun i j => ∀ c ∈ tokenCalls i, ∀ c' ∈ tokenCalls j, c.Apart c')
    (hwithin : ∀ i, Within PlainMap.empty (calls i)) :
    (∀ w, Service.Reaches self (Service.start calls) w →
      (∀ i, ServedRecords (tokenCalls i) w i) ∧
        ((∃ w', Service.Step self w w') ∨
          ∀ i, (w.party i).returned = (RecordMap.outcomes (tokenCalls i)).map .ok)) ∧
    Acc (fun w' w => Service.Step self w w') (Service.start calls) := by
  have haccepted : ∀ i, ∀ c ∈ calls i, c.Accepted := fun i => (hwithin i).accepted
  obtain ⟨hends, hkept⟩ :=
    Service.kept hself hwithin (separate_of_apart hcalls haccepted htold hapart)
  have hruns := fun i => runs_keep_records (hcalls i)
    (fun token htoken token' htoken' => htold token ⟨i, htoken⟩ token' ⟨i, htoken'⟩) (haccepted i)
  refine ⟨fun w hw => ⟨fun i => ?_, ?_⟩, hends⟩
  · obtain ⟨n, hpart⟩ := hkept w hw i
    have halone := hpart.servedAlone
    refine ⟨(hruns i).1 ▸ halone.returned, fun hclient c hc token htoken => ?_⟩
    obtain ⟨_, _, hview⟩ := halone.between hclient
    obtain ⟨c', hc', hcall⟩ := (mem_of_mapM (hcalls i)).2 c hc
    obtain ⟨h0, h1, _⟩ := haccepted i c' hc'
    rw [(TokenCall.call_eq_ok hcall).1] at h0 h1
    -- the record is kept at a place of this client's part
    have hcell : place (c.cacheType, token) ∈ cellsOf (calls i) :=
      (mem_cellsOf_iff (hcalls i) (haccepted i)).mpr
        ⟨c, hc, ⟨h0, h1⟩, rfl, Or.inr ⟨token, htoken, rfl⟩⟩
    rw [hview hcell]
    exact ((hruns i).2 _).get ⟨h0, h1⟩ ⟨c, hc, htoken⟩
  · have hgoes : (∃ w', Service.Step self w w') ∨ _ := Service.progress (hkept w hw)
    rcases hgoes with hstep | hdone
    · exact Or.inl hstep
    · exact Or.inr fun i => (hruns i).1 ▸ hdone i

end

/-- Two clients that work on the same position of two requests. -/
def twoRequests : Bool → List TokenCall
  | false => [.put 0 ⟨.int 1, 0, 2, 0⟩ [7], .exists_ 0 ⟨.int 1, 0, 2, 0⟩]
  | true => [.batchExists 0 [⟨.int 2, 0, 2, 0⟩], .put 0 ⟨.int 2, 0, 2, 0⟩ [8]]

theorem clients_keep_records_twoRequests :
    ∃ calls : Bool → List Call, (∀ i, (twoRequests i).mapM TokenCall.call = .ok (calls i)) ∧
      (∀ w, Service.Reaches (fun _ => ⟨true⟩) (Service.start calls) w →
        (∀ i, ServedRecords (twoRequests i) w i) ∧
          ((∃ w', Service.Step (fun _ => ⟨true⟩) w w') ∨
            ∀ i, (w.party i).returned = (RecordMap.outcomes (twoRequests i)).map .ok)) ∧
      Acc (fun w' w => Service.Step (fun _ => ⟨true⟩) w w') (Service.start calls) := by
  have hkey : ∀ n : ℤ, 0 ≤ n ∧ n ≤ 0xFFFFFFFFFFFFFFFF →
      ∃ key, Coordinates.key ⟨.int n, 0, 2, 0⟩ = .ok key := by
    intro n hn
    have hzero : (0 : ℤ) ≤ 0 := by decide
    have htwo : (0 : ℤ) ≤ 2 := by decide
    refine Coordinates.key_ok_iff.mpr ⟨?_, ⟨hzero, ?_⟩, ⟨htwo, ?_⟩, hzero, ?_⟩
    · rintro _ ⟨⟩
      exact hn
    · show (0 : ℤ) ≤ 0xFFFFFFFF
      decide
    · show (2 : ℤ) ≤ 0xFFFFFFFF
      decide
    · show (0 : ℤ) ≤ 0xFF
      decide
  obtain ⟨one, hone⟩ := hkey 1 (by decide)
  obtain ⟨two, htwo⟩ := hkey 2 (by decide)
  have hlone := Coordinates.length_key hone
  have hltwo := Coordinates.length_key htwo
  have hcalls : ∀ i, (twoRequests i).mapM TokenCall.call = .ok (cond i
      [.batchExists 0 [two], .put 0 two [8]] [.put 0 one [7], .exists_ 0 one]) := by
    rintro (_ | _) <;> unfold twoRequests <;>
      simp only [List.mapM_cons, List.mapM_nil, TokenCall.call, hone, htwo] <;> rfl
  -- the tokens of a client are of its request
  have hreq : ∀ {i c token}, c ∈ twoRequests i → token ∈ c.tokens →
      token.reqIndex = .int (cond i 2 1) := by
    rintro (_ | _) c token hc htoken <;> rcases List.mem_pair.mp hc with rfl | rfl <;>
      rw [List.mem_singleton.mp htoken] <;> rfl
  refine ⟨_, hcalls, ?_⟩
  apply clients_keep_records (fun _ => rfl) hcalls
  · rintro token ⟨i, c, hc, htoken⟩ token' _ name hname
    rw [hreq hc htoken] at hname
    cases hname
  · intro i j hij c hc c' hc' _
    refine ⟨?_, ?_, ?_⟩
    · cases i <;> rcases List.mem_pair.mp hc with rfl | rfl <;> rfl
    · cases j <;> rcases List.mem_pair.mp hc' with rfl | rfl <;> rfl
    · intro token htoken htoken'
      have heq := (hreq hc htoken).symm.trans (hreq hc' htoken')
      cases i <;> cases j <;> first | exact hij rfl | cases heq
  · have hmem : ∀ {key : Bytes}, key.length = 32 → ∀ k ∈ [key], k.length = 32 := by
      intro key hlen k hk
      rw [List.mem_singleton.mp hk]
      exact hlen
    have hzero : (0 : ℤ) ≤ 0 := by decide
    have htype : (0 : ℤ) ≤ 0xFF := by decide
    have hcount : 1 ≤ kMaxBatchCount := by decide
    intro i
    cases i with
    | false =>
        refine ⟨⟨⟨hzero, htype, hmem hlone, trivial⟩, hcount, ?_, ?_, trivial⟩,
          ⟨⟨hzero, htype, hmem hlone, trivial⟩, hcount, ?_, ?_, trivial⟩, trivial⟩
        · show ((Key.ofBytes one).toBytes ++ [7]).length < 2 ^ 32
          rw [List.length_append, Key.length_toBytes]
          decide
        · show ([] : Bytes).length < 2 ^ 32
          decide
        · show (Key.ofBytes one).toBytes.length < 2 ^ 32
          rw [Key.length_toBytes]
          decide
        · show 1 < 2 ^ 32
          decide
    | true =>
        refine ⟨⟨⟨hzero, htype, hmem hltwo, trivial⟩, hcount, ?_, ?_, trivial⟩,
          ⟨⟨hzero, htype, hmem hltwo, trivial⟩, hcount, ?_, ?_, trivial⟩, trivial⟩
        · show (LittleEndian.bytes 4 1 ++ ((Key.ofBytes two).toBytes ++ [])).length < 2 ^ 32
          rw [List.length_append, List.append_nil, LittleEndian.length_bytes, Key.length_toBytes]
          decide
        · show 5 < 2 ^ 32
          decide
        · show ((Key.ofBytes two).toBytes ++ [8]).length < 2 ^ 32
          rw [List.length_append, Key.length_toBytes]
          decide
        · show ([] : Bytes).length < 2 ^ 32
          decide

end AsuAscend.MicroKV
