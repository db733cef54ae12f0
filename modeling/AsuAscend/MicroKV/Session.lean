/-
One client and its connection, end to end.

A `Session` is a client that makes its calls one after another, the two byte streams
and the thread that serves the connection.

## What is proved

* `session_in_step`: each turn of the server reads exactly one request and each call exactly
  its response, every call returns what the plain map returns, and no run gets stuck or goes
  on forever. It is about the calls that are `Within` the limits of client and server.
* `Session.inv_lowers` and `Session.Inv.progress`: between two calls nothing is on its way;
  within a call both sides are at matching places of the same request. A step keeps this and
  lowers the number of steps that are left, and while there are any, somebody can step.
-/
import AsuAscend.MicroKV.Calls
import AsuAscend.MicroKV.Conversation
import AsuAscend.Lib.RankedRuns

set_option autoImplicit false

open StreamPrograms SequentialObject RankedRuns

namespace AsuAscend.MicroKV

/-! ## A run of calls -/

structure Session extends Endpoint where
  /-- the calls that are still to be made -/
  todo : List Call
  /-- the rest of the call that is running -/
  client : Option ( ClientIO (Except ClientError Outcome))
  /-- what the running call has received -/
  hearing : Bytes
  /-- what each finished call received -/
  heard : List Bytes
  /-- what each finished call returned -/
  returned : List (Except ClientError Outcome)
  /-- what the server's current turn has received -/
  reading : Bytes
  /-- what each finished turn of the server received -/
  read : List Bytes
  shared : Shared Unit

/-- A new connection to a new server. -/
def Session.start (calls : List Call) : Session where
  up := []
  server := handleClientTurn
  down := []
  todo := calls
  client := none
  hearing := []
  heard := []
  returned := []
  reading := []
  read := []
  shared := ⟨KVStore.empty, none⟩

/-- The session after a step of the server's thread. -/
def Session.advance (s : Session) (label : Label) (e : Endpoint) (sh : Shared Unit) : Session :=
  match label with
  | .nextTurn => { s with
      toEndpoint := e, shared := sh, reading := [], read := s.read ++ [s.reading] }
  | _ => { s with
      toEndpoint := e, shared := sh,
      reading := s.reading ++ s.up.take (s.up.length - e.up.length) }

inductive Session.Step (self : KVStoreClient) : Session → Session → Prop
  | call {s : Session} {c : Call} {calls : List Call} (hclient : s.client = none)
      (htodo : s.todo = c :: calls) :
      Step self s { s with client := some (c.program self).run, todo := calls }
  | send {s : Session} {data : Bytes} {next} (c : ℕ+) (hclient : s.client = some (.send data next))
      (hlen : (c : ℕ) ≤ data.length) :
      Step self s { s with client := some (next (some c)), up := s.up ++ data.take c }
  | recv {s : Session} {max : ℕ} {next} (c : ℕ) (hclient : s.client = some (.recv max next))
      (hpos : 0 < c) (hmax : c ≤ max) (hdown : c ≤ s.down.length) :
      Step self s { s with
        client := some (next (some (s.down.take c))), down := s.down.drop c,
        hearing := s.hearing ++ s.down.take c }
  | finish {s : Session} {a} (hclient : s.client = some (.ret a)) :
      Step self s { s with
        client := none, returned := s.returned ++ [a], heard := s.heard ++ [s.hearing],
        hearing := [] }
  | thread {s : Session} {label : Label} {e : Endpoint} {sh : Shared Unit}
      (h : ThreadStep () false s.toEndpoint s.shared label e sh) : Step self s (s.advance label e sh)

def Session.Reaches (self : KVStoreClient) : Session → Session → Prop :=
  Relation.ReflTransGen (Session.Step self)

/-! ## What the plain map makes of the calls -/

/-- The bytes of the response to a call. -/
noncomputable def Call.response (c : Call) (m : PlainMap) : Bytes :=
  MicroKV.response (c.request.answer (c.acts m))

namespace PlainMap

/-- What a call returns, and the response it is made from. -/
noncomputable def serve (c : Call) (m : PlainMap) : (Outcome × Bytes) × PlainMap :=
  (((m.call c).1, c.response m), (m.call c).2)

/-- The map after the calls. -/
noncomputable def run (calls : List Call) : PlainMap := after serve empty calls

noncomputable def outcomes (calls : List Call) : List Outcome :=
  (trace serve empty calls).map fun e => e.2.1

noncomputable def responses (calls : List Call) : List Bytes :=
  (trace serve empty calls).map fun e => e.2.2

theorem run_append_singleton (calls : List Call) (c : Call) :
    run (calls ++ [c]) = ((run calls).call c).2 := by
  unfold run
  rw [after_append]
  rfl

theorem outcomes_append_singleton (calls : List Call) (c : Call) :
    outcomes (calls ++ [c]) = outcomes calls ++ [((run calls).call c).1] := by
  unfold outcomes
  rw [trace_append, List.map_append]
  rfl

theorem responses_append_singleton (calls : List Call) (c : Call) :
    responses (calls ++ [c]) = responses calls ++ [c.response (run calls)] := by
  unfold responses
  rw [trace_append, List.map_append]
  rfl

theorem outcomes_prefix (calls later : List Call) : outcomes calls <+: outcomes (calls ++ later) := by
  unfold outcomes
  rw [trace_append, List.map_append]
  exact List.prefix_append _ _

theorem responses_prefix (calls later : List Call) :
    responses calls <+: responses (calls ++ later) := by
  unfold responses
  rw [trace_append, List.map_append]
  exact List.prefix_append _ _

theorem length_outcomes (calls : List Call) : (outcomes calls).length = calls.length := by
  unfold outcomes
  rw [List.length_map, length_trace]

end PlainMap

/-- Each call is within the limits when its turn comes. -/
def Within (m : PlainMap) : List Call → Prop
  | [] => True
  | c :: calls => c.Within m ∧ Within (m.call c).2 calls

/-- A bound on the steps that the calls take. -/
noncomputable def cost (m : PlainMap) : List Call → ℕ
  | [] => 0
  | c :: calls => 2 * c.request.message.length + 2 * (c.response m).length +
      2 * c.request.items.length + 3 + cost (m.call c).2 calls

/-- The client and the server are in step. -/
structure InStep (calls : List Call) (s : Session) : Prop where
  /-- each turn of the server has read exactly one request, -/
  requests : s.read <+: calls.map fun c => c.request.encode
  /-- each call has read exactly its response -/
  responses : s.heard <+: PlainMap.responses calls
  /-- and returned what the plain map returns -/
  returned : s.returned <+: (PlainMap.outcomes calls).map .ok
  /-- between two calls nothing is on its way and the store is the plain map -/
  between : s.client = none → s.up = [] ∧ s.down = [] ∧
    s.shared.store.view = PlainMap.run (calls.take s.returned.length)

/-! ## The invariant -/

/-- A call sends all of its request; none is rejected at the header. -/
theorem Call.message_eq (c : Call) : c.request.message = c.request.encode := by
  have htrailing : c.request.trailing = [] := by cases c <;> rfl
  rw [Request.encode, htrailing, List.append_nil]

/-- The client only sends what the server accepts. -/
theorem Call.not_rejected (c : Call) : c.request.rejected = false := by cases c <;> rfl

/-- Between two calls: the server waits, at the head of its loop or one turn before it.
`past` are the requests so far, `left` how many turns of the loop are due. -/
inductive Waiting (past : List Bytes) (s : Session) : ℕ → Prop
  | due (hserver : s.server = .ret none) (hread : s.read ++ [s.reading] = past) : Waiting past s 1
  | ready (hserver : s.server = handleClientTurn) (hread : s.read = past)
      (hreading : s.reading = []) : Waiting past s 0

structure Idle (m : PlainMap) (past : List Bytes) (s : Session) (left : ℕ) : Prop where
  client : s.client = none
  up : s.up = []
  down : s.down = []
  lock : s.shared.lock = none
  store : s.shared.store.view = m
  hearing : s.hearing = []
  server : Waiting past s left

/-- Where the server is with a request: not there yet, at it, or done with it. -/
inductive Serving (r : Request) (past : List Bytes) (s : Session)
    (t : Talk StoreOp StoreOp.Res) : ℕ → Prop
  | due (hserver : s.server = .ret none) (hread : s.read ++ [s.reading] = past)
      (ht : t = ⟨r.message, r.items, [], []⟩) : Serving r past s t 2
  | active (hmeets : Meets [] (· ≠ none) (Served r) s.server t) (hread : s.read = past)
      (hreading : s.reading ++ t.input = r.message) : Serving r past s t 1
  | done (hserver : s.server = handleClientTurn) (hread : s.read = past ++ [r.message])
      (hreading : s.reading = []) (hinput : t.input = []) (htodo : t.todo = [])
      (hout : t.out = r.reply t.did) : Serving r past s t 0

/-- The mutex is free, or the server is between the two steps of an access. -/
inductive Locking (s : Session) : ℕ → Prop
  | free (hlock : s.shared.lock = none) : Locking s 1
  | held {o next} (hserver : s.server = .op o next)
      (hlock : s.shared.lock = some ((), s.shared.store)) : Locking s 0

/-- In the middle of the call `c`, made on the map `m`. `tc` is what the client's code has still
to do, `ts` what the server's has; `unsent` and `unwritten` are the bytes that the client
and the server have not sent yet. -/
structure Busy (c : Call) (m : PlainMap) (past : List Bytes) (s : Session) (tc : ClientTalk)
    (ts : Talk StoreOp StoreOp.Res) (unsent unwritten : Bytes) (turns free : ℕ) : Prop where
  within : c.Within m
  client : ∃ p, s.client = some p ∧
    Meets c.request.encode (fun _ => True) (Returns c.request (m.call c).1) p tc
  server : Serving c.request past s ts turns
  lock : Locking s free
  sent : c.request.encode = tc.out ++ unsent
  up : ts.input = s.up ++ unsent
  written : c.response m = ts.out ++ unwritten
  down : tc.input = s.down ++ unwritten
  hearing : s.hearing ++ tc.input = c.response m
  acts : c.acts m = ts.did ++ trace PlainMap.step s.shared.store.view ts.todo
  store : after PlainMap.step s.shared.store.view ts.todo = (m.call c).2

/-- What is left to be done for a call that runs. -/
def remaining (unsent unwritten : Bytes) (tc : ClientTalk) (ts : Talk StoreOp StoreOp.Res)
    (turns free : ℕ) : ℕ :=
  unsent.length + ts.input.length + unwritten.length + tc.input.length + 2 * ts.todo.length +
    turns + free

/-- The invariant, with a bound on the steps that are left. -/
inductive Session.Inv (calls : List Call) : ℕ → Session → Prop
  | idle {s : Session} {before : List Call} {left n : ℕ} (hcalls : calls = before ++ s.todo)
      (hreturned : s.returned = (PlainMap.outcomes before).map .ok)
      (hheard : s.heard = PlainMap.responses before)
      (hwithin : MicroKV.Within (PlainMap.run before) s.todo)
      (h : Idle (PlainMap.run before) (before.map fun c => c.request.encode) s left)
      (hn : n = left + cost (PlainMap.run before) s.todo) : Session.Inv calls n s
  | busy {s : Session} {before : List Call} {c : Call} {tc ts} {unsent unwritten : Bytes}
      {turns free n : ℕ} (hcalls : calls = before ++ c :: s.todo)
      (hreturned : s.returned = (PlainMap.outcomes before).map .ok)
      (hheard : s.heard = PlainMap.responses before)
      (hwithin : MicroKV.Within ((PlainMap.run before).call c).2 s.todo)
      (h : Busy c (PlainMap.run before) (before.map fun c => c.request.encode) s tc ts unsent
        unwritten turns free)
      (hn : n = remaining unsent unwritten tc ts turns free +
        cost ((PlainMap.run before).call c).2 s.todo) :
      Session.Inv calls n s

/-! ## The steps of the client -/

variable {c : Call} {m : PlainMap} {past : List Bytes} {s : Session} {tc : ClientTalk}
  {ts : Talk StoreOp StoreOp.Res} {unsent unwritten : Bytes} {turns free left : ℕ}

/-- Within the limits every response fits its length field. -/
theorem Call.Within.fits (h : c.Within m) : c.request.fits (c.acts m) = true :=
  decide_eq_true h.2.2.2.1

/-- The accesses are made, so the reply is the response. -/
theorem Busy.reply_eq (h : Busy c m past s tc ts unsent unwritten turns free)
    (htodo : ts.todo = []) :
    c.request.reply ts.did = c.response m ∧ c.request.keeps ts.did = true := by
  have hacts := h.acts
  rw [htodo, trace, List.append_nil] at hacts
  rw [← hacts, Request.reply, Request.keeps, h.within.fits, c.not_rejected]
  exact ⟨rfl, rfl⟩

/-- A server that has written the whole reply has written the response. -/
theorem Busy.unwritten_eq (h : Busy c m past s tc ts unsent unwritten turns free)
    (htodo : ts.todo = []) (hout : ts.out = c.request.reply ts.did) : unwritten = [] := by
  have hwritten := h.written
  rw [hout, (h.reply_eq htodo).1] at hwritten
  exact List.append_right_eq_self.mp hwritten.symm

/-- A call meets an idle server. -/
theorem Idle.call {self : KVStoreClient} (hself : self.connected = true) (h : Idle m past s left)
    (hc : c.Within m) (calls : List Call) :
    Busy c m past { s with client := some (c.program self).run, todo := calls }
      ⟨c.response m, [], [], []⟩ ⟨c.request.message, c.request.items, [], []⟩ c.request.encode
      (c.response m) (left + 1) 1 where
  within := hc
  client := ⟨_, rfl, client_meets hself hc⟩
  -- the thread is about to read, or has its loop at the beginning
  server := by
    cases h.server with
    | due hserver hread => exact .due hserver hread rfl
    | ready hserver hread hreading =>
        -- its turn meets the message of the new request
        refine .active ?_ hread ?_
        · show Meets _ _ _ s.server _
          rw [hserver]
          exact serves_request hc.valid
        · show s.reading ++ c.request.message = _
          rw [hreading, List.nil_append]
  lock := .free h.lock
  sent := rfl
  -- the whole request is still with the client
  up := by
    show c.request.message = s.up ++ c.request.encode
    rw [h.up, List.nil_append, c.message_eq]
  written := rfl
  -- the response is not made yet
  down := by
    show c.response m = s.down ++ c.response m
    rw [h.down, List.nil_append]
  hearing := by
    show s.hearing ++ c.response m = _
    rw [h.hearing, List.nil_append]
  -- the accesses of the call, on the store as it is
  acts := by
    show c.acts m = [] ++ trace _ s.shared.store.view _
    rw [h.store]
    rfl
  store := by
    show after _ s.shared.store.view _ = _
    rw [h.store]
    exact call_after c m

/-- The client writes some bytes of its request. -/
theorem Busy.send (h : Busy c m past s tc ts unsent unwritten turns free) {data : Bytes} {next}
    (hclient : s.client = some (.send data next)) {n : ℕ+} (hlen : (n : ℕ) ≤ data.length) :
    ∃ tc' unsent', unsent'.length < unsent.length ∧ tc'.input = tc.input ∧
      Busy c m past { s with client := some (next (some n)), up := s.up ++ data.take n } tc' ts
        unsent' unwritten turns free := by
  obtain ⟨p, hp, hmeets⟩ := h.client
  rw [hclient, Option.some.injEq] at hp
  subst hp
  obtain ⟨hdata, _, hchunk⟩ := hmeets
  -- whatever the code still sends, it ends up with the bytes of the request
  obtain ⟨a, t', ⟨_, _, hout⟩, hprefix⟩ := (hchunk n hlen).out_grows fun o => o.elim
  rw [hout, h.sent, List.prefix_append_right_inj] at hprefix
  obtain ⟨unsent', hunsent⟩ := hprefix
  refine ⟨{ tc with out := tc.out ++ data.take n }, unsent', ?_, rfl, h.within, ?_, ?_, ?_, ?_, ?_,
    h.written, h.down, h.hearing, h.acts, h.store⟩
  · rw [← hunsent, List.length_append, List.length_take]
    have := n.pos
    omega
  · exact ⟨_, rfl, hchunk n hlen⟩
  · cases h.server with
    | due hserver hread ht => exact .due hserver hread ht
    | active hmeets hread hreading => exact .active hmeets hread hreading
    | done hserver hread hreading hinput htodo hout =>
        exact .done hserver hread hreading hinput htodo hout
  · cases h.lock with
    | free hlock => exact .free hlock
    | held hserver hlock => exact .held hserver hlock
  · show c.request.encode = tc.out ++ data.take n ++ unsent'
    rw [List.append_assoc, hunsent]
    exact h.sent
  · show ts.input = s.up ++ data.take n ++ unsent'
    rw [List.append_assoc, hunsent]
    exact h.up

/-- The client reads some bytes of the response. -/
theorem Busy.recv (h : Busy c m past s tc ts unsent unwritten turns free) {max : ℕ} {next}
    (hclient : s.client = some (.recv max next)) {n : ℕ} (hpos : 0 < n) (hmax : n ≤ max)
    (hdown : n ≤ s.down.length) :
    ∃ tc', tc'.input.length < tc.input.length ∧
      Busy c m past { s with
        client := some (next (some (s.down.take n))), down := s.down.drop n,
        hearing := s.hearing ++ s.down.take n } tc' ts unsent unwritten turns free := by
  obtain ⟨p, hp, hmeets⟩ := h.client
  rw [hclient, Option.some.injEq] at hp
  subst hp
  obtain ⟨_, hlen, _, _, _, hchunk⟩ := hmeets
  -- what arrives is the next part of the response
  have hinput : n ≤ tc.input.length := hmax.trans hlen
  have htake : s.down.take n = tc.input.take n := by
    rw [h.down, List.take_append_of_le_length hdown]
  have hdrop : tc.input.drop n = s.down.drop n ++ unwritten := by
    rw [h.down, List.drop_append_of_le_length hdown]
  refine ⟨{ tc with input := tc.input.drop n }, ?_, h.within, ?_, ?_, ?_, h.sent, h.up, h.written,
    hdrop, ?_, h.acts, h.store⟩
  · show (tc.input.drop n).length < _
    rw [List.length_drop]
    omega
  · refine ⟨_, rfl, ?_⟩
    rw [htake]
    exact hchunk n hpos hmax
  · cases h.server with
    | due hserver hread ht => exact .due hserver hread ht
    | active hmeets hread hreading => exact .active hmeets hread hreading
    | done hserver hread hreading hinput htodo hout =>
        exact .done hserver hread hreading hinput htodo hout
  · cases h.lock with
    | free hlock => exact .free hlock
    | held hserver hlock => exact .held hserver hlock
  · show s.hearing ++ s.down.take n ++ tc.input.drop n = _
    rw [htake, List.append_assoc, List.take_append_drop]
    exact h.hearing

/-- A call that returns leaves an idle server. -/
theorem Busy.finish (h : Busy c m past s tc ts unsent unwritten turns free) {a}
    (hclient : s.client = some (.ret a)) :
    a = .ok (m.call c).1 ∧ s.hearing = c.response m ∧
      Idle (m.call c).2 (past ++ [c.request.encode])
        { s with
          client := none, returned := s.returned ++ [a], heard := s.heard ++ [s.hearing],
          hearing := [] } turns := by
  obtain ⟨p, hp, hmeets⟩ := h.client
  rw [hclient, Option.some.injEq] at hp
  subst hp
  obtain ⟨hreturns, hinput, _⟩ := hmeets
  have hdown := h.down
  rw [hinput] at hdown
  obtain ⟨hdown, hunwritten⟩ := List.append_eq_nil_iff.mp hdown.symm
  have hwritten := h.written
  rw [hunwritten, List.append_nil] at hwritten
  have hhearing := h.hearing
  rw [hinput, List.append_nil] at hhearing
  have hne : ts.out ≠ [] := by
    rw [← hwritten]
    exact List.cons_ne_nil _ _
  refine ⟨hreturns, hhearing, ?_⟩
  cases h.server with
  | due _ _ ht => exact absurd (congrArg Talk.out ht) hne
  | done hserver hread hreading hinput htodo _ =>
      have hup := h.up
      rw [hinput] at hup
      have hlock : s.shared.lock = none := by
        cases h.lock with
        | free hlock => exact hlock
        | held hop _ =>
            obtain ⟨next, hnext⟩ := handleClientTurn_recv
            rw [hserver, hnext] at hop
            cases hop
      have hstore := h.store
      rw [htodo, after_nil] at hstore
      refine ⟨rfl, (List.append_eq_nil_iff.mp hup.symm).1, hdown, hlock, hstore, rfl, ?_⟩
      rw [c.message_eq] at hread
      exact .ready hserver hread hreading
  | active hmeets hread hreading =>
      -- the response is out, so the server has returned from the turn
      obtain ⟨r, hret, hinput, htodo, _, _, hkeeps⟩ := hmeets.has_returned hne <| by
        rintro r more ⟨_, htodo, _, hout, _⟩
        have hreply := (h.reply_eq htodo).1
        rw [hwritten] at hreply
        exact List.append_right_eq_self.mp (hout.trans hreply)
      rw [(h.reply_eq htodo).2, if_pos rfl] at hkeeps
      rw [hkeeps] at hret
      have hup := h.up
      rw [hinput] at hup
      rw [hinput, List.append_nil, c.message_eq] at hreading
      have hlock : s.shared.lock = none := by
        cases h.lock with
        | free hlock => exact hlock
        | held hop _ => rw [hret] at hop; cases hop
      have hstore := h.store
      rw [htodo, after_nil] at hstore
      refine ⟨rfl, (List.append_eq_nil_iff.mp hup.symm).1, hdown, hlock, hstore, rfl, ?_⟩
      refine .due hret ?_
      show s.read ++ [s.reading] = _
      rw [hread, hreading]

/-! ## The steps of the server -/

/-- A server that can do something other than go round its loop is at the request. -/
theorem Busy.active (h : Busy c m past s tc ts unsent unwritten turns free)
    (hret : s.server ≠ .ret none) (hturn : s.server = handleClientTurn → s.up ≠ []) :
    Meets [] (· ≠ none) (Served c.request) s.server ts ∧ s.read = past ∧
      s.reading ++ ts.input = c.request.message ∧ turns = 1 := by
  cases h.server with
  | due hserver _ _ => exact absurd hserver hret
  | active hmeets hread hreading => exact ⟨hmeets, hread, hreading, rfl⟩
  | done hserver _ _ hinput _ _ =>
      have hup := h.up
      rw [hinput] at hup
      exact absurd (List.append_eq_nil_iff.mp hup.symm).1 (hturn hserver)

theorem Busy.serverRecv (h : Busy c m past s tc ts unsent unwritten turns free) {max : ℕ} {next}
    (hserver : s.server = .recv max next) {n : ℕ} (hpos : 0 < n) (hmax : n ≤ max)
    (hup : n ≤ s.up.length) :
    (ts.input.drop n).length < ts.input.length ∧
      Busy c m past
        (s.advance .silent
          { s.toEndpoint with up := s.up.drop n, server := next (some (s.up.take n)) } s.shared)
        tc { ts with input := ts.input.drop n } unsent unwritten turns free := by
  have hne : s.up ≠ [] := by
    rintro hnil
    rw [hnil, List.length_nil] at hup
    omega
  obtain ⟨hmeets, hread, hreading, rfl⟩ :=
    h.active (by rw [hserver]; exact fun hc => by cases hc) fun _ => hne
  rw [hserver] at hmeets
  obtain ⟨_, hlen, _, _, _, hchunk⟩ := hmeets
  have hinput : n ≤ ts.input.length := hmax.trans hlen
  -- the bytes taken are the next bytes of the request
  have htake : s.up.take n = ts.input.take n := by
    rw [h.up, List.take_append_of_le_length hup]
  have hdrop : ts.input.drop n = s.up.drop n ++ unsent := by
    rw [h.up, List.drop_append_of_le_length hup]
  have hchunkLen : s.up.length - (s.up.drop n).length = n := by
    rw [List.length_drop]
    omega
  refine ⟨?_, h.within, h.client, ?_, ?_, h.sent, hdrop, h.written, h.down, h.hearing, h.acts,
    h.store⟩
  · rw [List.length_drop]
    omega
  · refine .active ?_ hread ?_
    · show Meets _ _ _ (next (some (s.up.take n))) _
      rw [htake]
      exact hchunk n hpos hmax
    · show s.reading ++ s.up.take (s.up.length - (s.up.drop n).length) ++ ts.input.drop n = _
      rw [hchunkLen, htake, List.append_assoc, List.take_append_drop]
      exact hreading
  · cases h.lock with
    | free hlock => exact .free hlock
    | held hop _ => rw [hserver] at hop; cases hop

theorem Busy.serverSend (h : Busy c m past s tc ts unsent unwritten turns free) {data : Bytes}
    {next} (hserver : s.server = .send data next) {n : ℕ+} (hlen : (n : ℕ) ≤ data.length) :
    ∃ unwritten', unwritten'.length < unwritten.length ∧
      Busy c m past
        (s.advance .silent
          { s.toEndpoint with server := next (some n), down := s.down ++ data.take n } s.shared)
        tc { ts with out := ts.out ++ data.take n } unsent unwritten' turns free := by
  obtain ⟨hmeets, hread, hreading, rfl⟩ :=
    h.active (by rw [hserver]; exact fun hc => by cases hc) fun hturn => by
      rw [hserver] at hturn
      exact absurd hturn.symm (handleClientTurn_ne fun _ _ hrecv => by cases hrecv)
  rw [hserver] at hmeets
  have hnext := hmeets.2.2 n hlen
  have hdata : data.take n ≠ [] := by
    intro hnil
    have htake := congrArg List.length hnil
    rw [List.length_take, List.length_nil] at htake
    have := n.pos
    omega
  -- from here on the server only writes, so the rest of the response is fixed
  obtain ⟨a, more, _, htodo, _, hreply, _⟩ :=
    hnext.only_writes fun hnil => hdata (List.append_eq_nil_iff.mp hnil).2
  have hrest : unwritten = data.take n ++ more := by
    have hresponse := (h.reply_eq htodo).1
    dsimp only at hreply
    rw [← hreply, h.written, List.append_assoc, List.append_cancel_left_eq] at hresponse
    exact hresponse.symm
  refine ⟨more, ?_, h.within, h.client, ?_, ?_, h.sent, ?_, ?_, ?_, h.hearing, h.acts, h.store⟩
  · rw [hrest, List.length_append]
    have := List.length_pos_iff.mpr hdata
    omega
  · refine .active hnext hread ?_
    show s.reading ++ s.up.take (s.up.length - s.up.length) ++ ts.input = _
    rw [Nat.sub_self, List.take_zero, List.append_nil]
    exact hreading
  · cases h.lock with
    | free hlock => exact .free hlock
    | held hop _ => rw [hserver] at hop; cases hop
  · exact h.up
  · show c.response m = ts.out ++ data.take n ++ more
    rw [List.append_assoc, ← hrest]
    exact h.written
  · show tc.input = s.down ++ data.take n ++ more
    rw [List.append_assoc, ← hrest]
    exact h.down

/-- An access to the store. -/
theorem Busy.serverLock (h : Busy c m past s tc ts unsent unwritten turns free) {o next}
    (hserver : s.server = .op o next) (hlock : s.shared.lock = none) :
    free = 1 ∧ Busy c m past
      (s.advance .silent s.toEndpoint { s.shared with lock := some ((), s.shared.store) })
      tc ts unsent unwritten turns 0 := by
  obtain ⟨hmeets, hread, hreading, rfl⟩ :=
    h.active (by rw [hserver]; exact fun hc => by cases hc) fun hturn => by
      rw [hserver] at hturn
      exact absurd hturn.symm (handleClientTurn_ne fun _ _ hrecv => by cases hrecv)
  refine ⟨?_, h.within, h.client, ?_, .held hserver rfl, h.sent, h.up, h.written, h.down,
    h.hearing, h.acts, h.store⟩
  · cases h.lock with
    | free _ => rfl
    | held _ hheld =>
        rw [hlock] at hheld
        cases hheld
  · refine .active hmeets hread ?_
    show s.reading ++ s.up.take (s.up.length - s.up.length) ++ ts.input = _
    rw [Nat.sub_self, List.take_zero, List.append_nil]
    exact hreading

theorem Busy.serverUnlock (h : Busy c m past s tc ts unsent unwritten turns free) {o : StoreOp}
    {next : o.Res → Server (Option Bool)} (hserver : s.server = .op o next) {found : KVStore}
    (hheld : s.shared.lock = some ((), found)) :
    free = 0 ∧ ∃ rest, ts.todo = o :: rest ∧ Busy c m past
      (s.advance (.accessed ⟨o, (KVStore.step o found).1⟩)
        { s.toEndpoint with server := next (KVStore.step o found).1 }
        { store := (KVStore.step o found).2, lock := none })
      tc { ts with todo := rest, did := ts.did ++ [⟨o, (KVStore.step o found).1⟩] }
      unsent unwritten turns 1 := by
  obtain ⟨hmeets, hread, hreading, rfl⟩ :=
    h.active (by rw [hserver]; exact fun hc => by cases hc) fun hturn => by
      rw [hserver] at hturn
      exact absurd hturn.symm (handleClientTurn_ne fun _ _ hrecv => by cases hrecv)
  rw [hserver] at hmeets
  obtain ⟨_, rest, htodo, hnext⟩ := hmeets
  have hfound : found = s.shared.store ∧ free = 0 := by
    cases h.lock with
    | free hlock =>
        rw [hlock] at hheld
        cases hheld
    | held _ hlock =>
        rw [hlock, Option.some.injEq, Prod.mk.injEq] at hheld
        exact ⟨hheld.2.symm, rfl⟩
  obtain ⟨rfl, hfree⟩ := hfound
  -- on the plain map the access has the same result, and leaves the view of the new store
  obtain ⟨hres, hview⟩ := store_views o s.shared.store
  have hacts := h.acts
  have hstore := h.store
  rw [htodo] at hacts hstore
  rw [trace, hres, hview] at hacts
  rw [after_cons, hview] at hstore
  refine ⟨hfree, rest, htodo, h.within, h.client, ?_, .free rfl, h.sent, h.up, h.written, h.down,
    h.hearing, ?_, hstore⟩
  · refine .active (hnext _) hread ?_
    show s.reading ++ s.up.take (s.up.length - s.up.length) ++ ts.input = _
    rw [Nat.sub_self, List.take_zero, List.append_nil]
    exact hreading
  · rw [hacts, List.append_cons]
    rfl

theorem Busy.serverTurn (h : Busy c m past s tc ts unsent unwritten turns free)
    (hserver : s.server = .ret none) :
    ∃ turns', turns = turns' + 1 ∧ Busy c m past
      (s.advance .nextTurn { s.toEndpoint with server := handleClientTurn } s.shared)
      tc ts unsent unwritten turns' free := by
  have hlock : Locking (s.advance .nextTurn { s.toEndpoint with server := handleClientTurn }
      s.shared) free := by
    cases h.lock with
    | free hlock => exact .free hlock
    | held hop _ => rw [hserver] at hop; cases hop
  cases h.server with
  | due _ hread ht =>
      refine ⟨1, rfl, h.within, h.client, ?_, hlock, h.sent, h.up, h.written, h.down, h.hearing,
        h.acts, h.store⟩
      subst ht
      exact .active (serves_request h.within.valid) hread rfl
  | active hmeets hread hreading =>
      refine ⟨0, rfl, h.within, h.client, ?_, hlock, h.sent, h.up, h.written, h.down, h.hearing,
        h.acts, h.store⟩
      rw [hserver] at hmeets
      -- the turn has served the request: all of it is read, and its response is out
      obtain ⟨hinput, htodo, _, hout, _⟩ := hmeets
      rw [hinput, List.append_nil] at hreading
      refine .done rfl ?_ rfl hinput htodo hout
      show s.read ++ [s.reading] = _
      rw [hread, hreading]
  | done hturn _ _ _ _ _ =>
      rw [hserver] at hturn
      exact absurd hturn.symm (handleClientTurn_ne fun _ _ hrecv => by cases hrecv)

theorem Busy.thread (h : Busy c m past s tc ts unsent unwritten turns free) {label : Label}
    {e : Endpoint} {sh : Shared Unit}
    (hstep : ThreadStep () false s.toEndpoint s.shared label e sh) :
    ∃ ts' unwritten' turns' free', remaining unsent unwritten' tc ts' turns' free' <
        remaining unsent unwritten tc ts turns free ∧
      Busy c m past (s.advance label e sh) tc ts' unsent unwritten' turns' free' := by
  generalize he : s.toEndpoint = e0 at hstep
  generalize hsh : s.shared = sh0 at hstep
  cases hstep with
  | recv n hserver hpos hmax hup =>
      subst he hsh
      obtain ⟨hlt, hbusy⟩ := h.serverRecv hserver hpos hmax hup
      exact ⟨_, _, _, _, by unfold remaining; dsimp only; omega, hbusy⟩
  | recvEnds _ hclosed _ => cases hclosed
  | recvFails _ hclosed => cases hclosed
  | send n hserver hlen =>
      subst he hsh
      obtain ⟨unwritten', hlt, hbusy⟩ := h.serverSend hserver hlen
      exact ⟨_, _, _, _, by unfold remaining; dsimp only; omega, hbusy⟩
  | sendFails _ hclosed => cases hclosed
  -- an access takes two steps, and only the second changes the store
  | lock hserver hfree =>
      subst he hsh
      obtain ⟨rfl, hbusy⟩ := h.serverLock hserver hfree
      exact ⟨_, _, _, _, Nat.lt_succ_self _, hbusy⟩
  | unlock hserver hheld =>
      subst he hsh
      obtain ⟨rfl, rest, htodo, hbusy⟩ := h.serverUnlock hserver hheld
      refine ⟨_, _, _, _, ?_, hbusy⟩
      unfold remaining
      rw [htodo, List.length_cons]
      dsimp only
      omega
  | turn hserver =>
      subst he hsh
      obtain ⟨turns', rfl, hbusy⟩ := h.serverTurn hserver
      exact ⟨_, _, _, _, by unfold remaining; omega, hbusy⟩

/-- Between two calls the server is at the end of a turn or waits for a request. -/
theorem Idle.server_ne (h : Idle m past s left) {p : Server (Option Bool)} (hret : p ≠ .ret none)
    (hrecv : ∀ max next, p ≠ .recv max next) : s.server ≠ p := by
  cases h.server with
  | due hserver _ =>
      rw [hserver]
      exact hret.symm
  | ready hserver _ _ =>
      rw [hserver]
      exact handleClientTurn_ne hrecv

/-- So all it can do is go round its loop. -/
theorem Idle.thread (h : Idle m past s left) {label : Label} {e : Endpoint} {sh : Shared Unit}
    (hstep : ThreadStep () false s.toEndpoint s.shared label e sh) :
    left = 1 ∧ Idle m past (s.advance label e sh) 0 := by
  generalize he : s.toEndpoint = e0 at hstep
  generalize hsh : s.shared = sh0 at hstep
  cases hstep with
  | recv n hserver hpos _ hup =>
      -- no byte is on its way
      subst he
      rw [h.up, List.length_nil] at hup
      omega
  | recvEnds _ hclosed _ => cases hclosed
  | recvFails _ hclosed => cases hclosed
  | sendFails _ hclosed => cases hclosed
  | send n hserver _ =>
      subst he
      exact absurd hserver (h.server_ne nofun nofun)
  | lock hserver _ =>
      subst he
      exact absurd hserver (h.server_ne nofun nofun)
  | unlock hserver _ =>
      subst he
      exact absurd hserver (h.server_ne nofun nofun)
  | turn hserver =>
      subst he hsh
      cases h.server with
      | due _ hread =>
          exact ⟨rfl, h.client, h.up, h.down, h.lock, h.store, h.hearing, .ready rfl hread rfl⟩
      | ready hturn _ _ =>
          rw [hserver] at hturn
          exact absurd hturn.symm (handleClientTurn_ne nofun)

/-! ## Every step -/

variable {self : KVStoreClient} {calls : List Call}

@[simp] theorem Session.todo_advance (label : Label) (e : Endpoint) (sh : Shared Unit) :
    (s.advance label e sh).todo = s.todo := by cases label <;> rfl

@[simp] theorem Session.returned_advance (label : Label) (e : Endpoint) (sh : Shared Unit) :
    (s.advance label e sh).returned = s.returned := by cases label <;> rfl

@[simp] theorem Session.heard_advance (label : Label) (e : Endpoint) (sh : Shared Unit) :
    (s.advance label e sh).heard = s.heard := by cases label <;> rfl

/-- A new session is idle, with all calls to come. -/
theorem Session.inv_start (h : Within PlainMap.empty calls) :
    Session.Inv calls (cost PlainMap.empty calls) (Session.start calls) := by
  have hidle : Idle (PlainMap.run []) (([] : List Call).map fun c => c.request.encode)
      (Session.start calls) 0 :=
    ⟨rfl, rfl, rfl, rfl, KVStore.view_empty, rfl, .ready rfl rfl rfl⟩
  refine .idle ?_ ?_ ?_ ?_ hidle (Nat.zero_add _).symm
  · rfl
  · rfl
  · rfl
  · exact h

/-- **Every step** of either side keeps the invariant and lowers the rank. -/
theorem Session.inv_lowers (hself : self.connected = true) :
    Lowers (Session.Step self) (Session.Inv calls) := by
  intro n s t h hstep
  cases h with
  | @idle _ before left _ hcalls hreturned hheard hwithin h hn =>
      -- nothing is under way, so the client calls or the server goes round its loop
      cases hstep with
      | @call c rest hclient htodo =>
          rw [htodo] at hwithin hcalls hn
          refine ⟨_, ?_, .busy hcalls hreturned hheard hwithin.2 (h.call hself hwithin.1 rest) rfl⟩
          rw [hn, cost, remaining, c.message_eq]
          dsimp only
          omega
      | send _ hclient _ => rw [h.client] at hclient; cases hclient
      | recv _ hclient _ _ _ => rw [h.client] at hclient; cases hclient
      | finish hclient => rw [h.client] at hclient; cases hclient
      | thread hstep =>
          obtain ⟨rfl, hidle⟩ := h.thread hstep
          refine ⟨_, ?_, .idle ?_ ?_ ?_ ?_ hidle rfl⟩
          · rw [Session.todo_advance]
            omega
          · rw [Session.todo_advance]
            exact hcalls
          · rw [Session.returned_advance]
            exact hreturned
          · rw [Session.heard_advance]
            exact hheard
          · rw [Session.todo_advance]
            exact hwithin
  | @busy _ before c tc ts unsent unwritten turns free _ hcalls hreturned hheard hwithin h hn =>
      cases hstep with
      | call hclient _ =>
          obtain ⟨p, hp, _⟩ := h.client
          rw [hclient] at hp
          cases hp
      | send k hclient hlen =>
          obtain ⟨tc', unsent', hlt, hinput, hbusy⟩ := h.send hclient hlen
          refine ⟨_, ?_, .busy hcalls hreturned hheard hwithin hbusy rfl⟩
          rw [hn, remaining, remaining, hinput]
          dsimp only
          omega
      | recv k hclient hpos hmax hdown =>
          obtain ⟨tc', hlt, hbusy⟩ := h.recv hclient hpos hmax hdown
          refine ⟨_, ?_, .busy hcalls hreturned hheard hwithin hbusy rfl⟩
          rw [hn, remaining, remaining]
          dsimp only
          omega
      | finish hclient =>
          -- the call joins those before it, and its response is all that was heard for it
          obtain ⟨rfl, hhearing, hidle⟩ := h.finish hclient
          rw [← PlainMap.run_append_singleton] at hidle hwithin
          have hpast : (before.map fun c => c.request.encode) ++ [c.request.encode] =
              (before ++ [c]).map fun c => c.request.encode := by
            rw [List.map_append]
            rfl
          rw [hpast] at hidle
          refine ⟨_, ?_, .idle ?_ ?_ ?_ hwithin hidle rfl⟩
          · cases h.lock with
            | free _ =>
                rw [hn, remaining, PlainMap.run_append_singleton]
                dsimp only
                omega
            | held _ hheld =>
                rw [hidle.lock] at hheld
                cases hheld
          · rw [List.append_assoc]
            exact hcalls
          · rw [PlainMap.outcomes_append_singleton, List.map_append, ← hreturned]
            rfl
          · rw [PlainMap.responses_append_singleton, ← hheard, ← hhearing]
      | thread hstep =>
          obtain ⟨ts', unwritten', turns', free', hlt, hbusy⟩ := h.thread hstep
          refine ⟨_, ?_, .busy ?_ ?_ ?_ ?_ hbusy rfl⟩
          · rw [Session.todo_advance]
            omega
          · rw [Session.todo_advance]
            exact hcalls
          · rw [Session.returned_advance]
            exact hreturned
          · rw [Session.heard_advance]
            exact hheard
          · rw [Session.todo_advance]
            exact hwithin

/-! ## No run gets stuck -/

/-- A running call can go on, or the server can. -/
theorem Busy.progress (h : Busy c m past s tc ts unsent unwritten turns free) :
    ∃ t, Session.Step self s t := by
  obtain ⟨p, hp, hmeets⟩ := h.client
  cases p with
  | ret a => exact ⟨_, .finish hp⟩
  | send data next =>
      have hpos := List.length_pos_iff.mpr hmeets.1
      exact ⟨_, .send 1 hp hpos⟩
  | op o next => exact o.elim
  | recv max next =>
      obtain ⟨hpos, hlen, hout, _, _, _⟩ := hmeets
      rcases Nat.eq_zero_or_pos s.down.length with hdown | hdown
      · -- the client waits, so its request is out and its response is not
        have hunsent : unsent = [] := by
          have hsent := h.sent
          rw [hout] at hsent
          exact List.append_right_eq_self.mp hsent.symm
        have hup := h.up
        rw [hunsent, List.append_nil] at hup
        have hunwritten : unwritten ≠ [] := by
          rintro hnil
          rw [h.down, hnil, List.append_nil] at hlen
          omega
        cases h.server with
        | due hserver _ _ => exact ⟨_, .thread (.turn hserver)⟩
        | done _ _ _ _ htodo hreply => exact absurd (h.unwritten_eq htodo hreply) hunwritten
        | active hmeets _ _ =>
            -- the server has the request, so whatever it does next it can do
            cases hserver : s.server with
            | ret b =>
                rw [hserver] at hmeets
                obtain ⟨_, htodo, _, hreply, _⟩ := hmeets
                exact absurd (h.unwritten_eq htodo hreply) hunwritten
            | recv max' next' =>
                rw [hserver] at hmeets
                obtain ⟨hpos', hlen', _⟩ := hmeets
                rw [hup] at hlen'
                exact ⟨_, .thread (.recv 1 hserver Nat.one_pos hpos' (hpos'.trans_le hlen'))⟩
            | send data next' =>
                rw [hserver] at hmeets
                have hdata := List.length_pos_iff.mpr hmeets.1
                exact ⟨_, .thread (.send 1 hserver hdata)⟩
            | op o next' =>
                cases h.lock with
                | free hlock => exact ⟨_, .thread (.lock hserver hlock)⟩
                | held _ hlock => exact ⟨_, .thread (.unlock hserver hlock)⟩
      · exact ⟨_, .recv 1 hp Nat.one_pos hpos hdown⟩

/-- A session goes on until every call has returned. -/
theorem Session.Inv.progress {n : ℕ} (h : Session.Inv calls n s) :
    (∃ t, Session.Step self s t) ∨ s.returned = (PlainMap.outcomes calls).map .ok := by
  cases h with
  | busy _ _ _ _ h _ => exact Or.inl h.progress
  | idle hcalls hreturned _ _ h _ =>
      cases htodo : s.todo with
      | nil =>
          rw [htodo, List.append_nil] at hcalls
          rw [hcalls]
          exact Or.inr hreturned
      | cons c rest => exact Or.inl ⟨_, .call h.client htodo⟩

/-- What the invariant says about the two ends. -/
theorem Session.Inv.inStep {n : ℕ} (h : Session.Inv calls n s) : InStep calls s := by
  cases h with
  | @idle _ before left _ hcalls hreturned hheard _ h _ =>
      have hrequests : (before.map fun c => c.request.encode) <+:
          calls.map fun c => c.request.encode := by
        rw [hcalls, List.map_append]
        exact List.prefix_append _ _
      have hread : s.read <+: before.map fun c => c.request.encode := by
        cases h.server with
        | due _ hread => exact ⟨_, hread⟩
        | ready _ hread _ => exact hread ▸ List.prefix_refl _
      refine ⟨hread.trans hrequests, ?_, ?_, ?_⟩
      · rw [hheard, hcalls]
        exact PlainMap.responses_prefix _ _
      · rw [hreturned, hcalls]
        exact (PlainMap.outcomes_prefix _ _).map _
      · intro _
        refine ⟨h.up, h.down, ?_⟩
        rw [hreturned, List.length_map, PlainMap.length_outcomes, hcalls, List.take_left]
        exact h.store
  | @busy _ before c tc ts unsent unwritten turns free _ hcalls hreturned hheard _ h _ =>
      have hrequests : (before.map fun c => c.request.encode) ++ [c.request.encode] <+:
          calls.map fun c => c.request.encode := by
        -- the request under way is the next one of the calls
        refine ⟨s.todo.map fun c => c.request.encode, ?_⟩
        rw [hcalls, List.map_append, List.map_cons, ← List.append_cons]
      have hread : s.read <+: (before.map fun c => c.request.encode) ++ [c.request.encode] := by
        cases h.server with
        | due _ hread _ => exact (hread ▸ List.prefix_append _ _).trans (List.prefix_append _ _)
        | active _ hread _ => exact hread ▸ List.prefix_append _ _
        | done _ hread _ _ _ _ =>
            rw [hread, c.message_eq]
      refine ⟨hread.trans hrequests, ?_, ?_, ?_⟩
      · rw [hheard, hcalls]
        exact PlainMap.responses_prefix _ _
      · rw [hreturned, hcalls]
        exact (PlainMap.outcomes_prefix _ _).map _
      · intro hclient
        obtain ⟨p, hp, _⟩ := h.client
        rw [hclient] at hp
        cases hp

/-! ## What `size` counts -/

/-- The keys that a call stores under a type. -/
def Call.stores (cacheType : ℤ) : Call → List Bytes
  | put type key _ => if type = cacheType then [key] else []
  | batchPut type keys _ => if type = cacheType then keys else []
  | _ => []

/-- The keys stored under a type since it was last cleared. -/
def storedSinceClear (cacheType : ℤ) (calls : List Call) : Set Bytes :=
  { key | ∃ before c later, calls = before ++ c :: later ∧ key ∈ c.stores cacheType ∧
    Call.clear cacheType ∉ later }

/-- The keys stored since the last clear, after one call more. -/
theorem mem_storedSinceClear_append {cacheType : ℤ} {calls : List Call} {c : Call} {key : Bytes} :
    key ∈ storedSinceClear cacheType (calls ++ [c]) ↔
      key ∈ c.stores cacheType ∨
        (c ≠ .clear cacheType ∧ key ∈ storedSinceClear cacheType calls) := by
  constructor
  · rintro ⟨before, c', later, hcalls, hstores, hclear⟩
    rcases List.eq_nil_or_concat later with rfl | ⟨rest, c'', rfl⟩
    · rw [List.append_singleton_inj] at hcalls
      rw [hcalls.2]
      exact Or.inl hstores
    · rw [List.concat_eq_append, ← List.cons_append, ← List.append_assoc,
        List.append_singleton_inj] at hcalls
      rw [List.concat_eq_append, List.mem_append, List.mem_singleton, not_or] at hclear
      rw [hcalls.2]
      exact Or.inr ⟨Ne.symm hclear.2, before, c', rest, hcalls.1, hstores, hclear.1⟩
  · rintro (hstores | ⟨hc, before, c', later, rfl, hstores, hclear⟩)
    · exact ⟨calls, c, [], rfl, hstores, List.not_mem_nil⟩
    · refine ⟨before, c', later ++ [c], ?_, hstores, ?_⟩
      · rw [List.append_assoc, List.cons_append]
      · rw [List.mem_append, List.mem_singleton, not_or]
        exact ⟨hclear, Ne.symm hc⟩

/-- Types that are accepted are told apart by their byte. -/
theorem typeByte_inj {type cacheType : ℤ} (h0 : 0 ≤ type) (h1 : type ≤ 0xFF)
    (h0' : 0 ≤ cacheType) (h1' : cacheType ≤ 0xFF) (h : typeByte type = typeByte cacheType) :
    type = cacheType := by
  have hn := congrArg UInt8.toNat h
  unfold typeByte at hn
  rw [UInt8.toNat_ofNat_of_lt' (by show _ < 256; omega),
    UInt8.toNat_ofNat_of_lt' (by show _ < 256; omega)] at hn
  omega

namespace PlainMap

/-- The keys of a type after a put. -/
theorem mem_keys_put {m : PlainMap} {type type' : UInt8} {key k : Key} {value : Bytes} :
    k ∈ (m.put type key value).keys type' ↔ (type = type' ∧ key = k) ∨ k ∈ m.keys type' := by
  show Function.update m (type, key) (some value) (type', k) ≠ none ↔ _
  by_cases hk : (type', k) = (type, key)
  · obtain ⟨rfl, rfl⟩ := Prod.mk.inj hk
    rw [Function.update_self]
    exact ⟨fun _ => Or.inl ⟨rfl, rfl⟩, fun _ => Option.some_ne_none value⟩
  · rw [Function.update_of_ne hk]
    refine ⟨Or.inr, ?_⟩
    rintro (⟨rfl, rfl⟩ | hm)
    · exact absurd rfl hk
    · exact hm

theorem mem_keys_clear {m : PlainMap} {type type' : UInt8} {k : Key} :
    k ∈ (m.clear type).keys type' ↔ type' ≠ type ∧ k ∈ m.keys type' := by
  show (if type' = type then none else m (type', k)) ≠ none ↔ _
  by_cases htype : type' = type
  · rw [if_pos htype]
    exact ⟨fun h => absurd rfl h, fun h => absurd htype h.1⟩
  · rw [if_neg htype]
    exact ⟨fun h => ⟨htype, h⟩, fun h => h.2⟩

theorem mem_keys_foldl_put {type type' : UInt8} {items : List (Bytes × Bytes)} {m : PlainMap}
    {k : Key} :
    k ∈ (items.foldl (fun m item => m.put type (Key.ofBytes item.1) item.2) m).keys type' ↔
      (type = type' ∧ ∃ key ∈ items.map Prod.fst, Key.ofBytes key = k) ∨ k ∈ m.keys type' := by
  induction items generalizing m with
  | nil => simp
  | cons item items ih =>
      rw [List.foldl_cons, ih, mem_keys_put]
      simp only [List.map_cons, List.mem_cons, exists_eq_or_imp]
      rw [and_or_left, or_assoc, or_left_comm]

/-- The keys that a call leaves under a type: those that it stores, and the ones before
unless it clears them. -/
theorem mem_keys_call {c : Call} (hc : c.Accepted) {cacheType : ℤ} (h0 : 0 ≤ cacheType)
    (h1 : cacheType ≤ 0xFF) {m : PlainMap} {k : Key} :
    k ∈ (m.call c).2.keys (typeByte cacheType) ↔
      (∃ key ∈ c.stores cacheType, Key.ofBytes key = k) ∨
        (c ≠ .clear cacheType ∧ k ∈ m.keys (typeByte cacheType)) := by
  obtain ⟨hc0, hc1, _, hlen⟩ := hc
  have htype : typeByte c.cacheType = typeByte cacheType ↔ c.cacheType = cacheType :=
    ⟨typeByte_inj hc0 hc1 h0 h1, congrArg typeByte⟩
  cases c with
  | get _ _ => simp [PlainMap.call, Call.stores]
  | exists_ _ _ => simp [PlainMap.call, Call.stores]
  | batchGet _ _ => simp [PlainMap.call, Call.stores]
  | batchExists _ _ => simp [PlainMap.call, Call.stores]
  | size _ => simp [PlainMap.call, Call.stores]
  | put type key value =>
      show k ∈ (m.put (typeByte type) (Key.ofBytes key) value).keys (typeByte cacheType) ↔ _
      rw [mem_keys_put, show typeByte type = typeByte cacheType ↔ type = cacheType from htype]
      by_cases ht : type = cacheType <;> simp [Call.stores, ht]
  | batchPut type keys values =>
      show k ∈ (List.foldl _ m (keys.zip values)).keys (typeByte cacheType) ↔ _
      rw [mem_keys_foldl_put, List.map_fst_zip (Nat.le_of_eq hlen),
        show typeByte type = typeByte cacheType ↔ type = cacheType from htype]
      by_cases ht : type = cacheType <;> simp [Call.stores, ht]
  | clear type =>
      show k ∈ (m.clear (typeByte type)).keys (typeByte cacheType) ↔ _
      rw [mem_keys_clear, ne_comm, Ne,
        show typeByte type = typeByte cacheType ↔ type = cacheType from htype]
      simp [Call.stores]

/-- **The keys of the map** after any calls are those stored since the last clear. -/
theorem keys_run {cacheType : ℤ} (h0 : 0 ≤ cacheType) (h1 : cacheType ≤ 0xFF) {calls : List Call}
    (hcalls : ∀ c ∈ calls, c.Accepted) :
    (run calls).keys (typeByte cacheType) = Key.ofBytes '' storedSinceClear cacheType calls := by
  induction calls using List.reverseRecOn with
  | nil =>
      ext k
      constructor
      · intro h
        exact absurd rfl h
      · rintro ⟨key, ⟨before, c, later, hnil, _⟩, _⟩
        exact absurd (congrArg List.length hnil) (by simp)
  | append_singleton calls c ih =>
      have hc : c.Accepted := hcalls c (by simp)
      have ih := ih fun c' hc' => hcalls c' (List.mem_append_left _ hc')
      ext k
      rw [run_append_singleton, mem_keys_call hc h0 h1, ih]
      constructor
      · rintro (⟨key, hkey, rfl⟩ | ⟨hne, key, hkey, rfl⟩)
        · exact ⟨key, mem_storedSinceClear_append.mpr (Or.inl hkey), rfl⟩
        · exact ⟨key, mem_storedSinceClear_append.mpr (Or.inr ⟨hne, hkey⟩), rfl⟩
      · rintro ⟨key, hkey, rfl⟩
        rcases mem_storedSinceClear_append.mp hkey with hkey | ⟨hne, hkey⟩
        · exact Or.inl ⟨key, hkey, rfl⟩
        · exact Or.inr ⟨hne, key, hkey, rfl⟩

/-- `size` counts the keys stored since the last `clear`. -/
theorem size_run {cacheType : ℤ} (h0 : 0 ≤ cacheType) (h1 : cacheType ≤ 0xFF) {calls : List Call}
    (hcalls : ∀ c ∈ calls, c.Accepted) :
    (run calls).size (typeByte cacheType) = (storedSinceClear cacheType calls).ncard := by
  unfold size
  rw [keys_run h0 h1 hcalls]
  apply Set.InjOn.ncard_image
  have hlength : ∀ key ∈ storedSinceClear cacheType calls, key.length = 32 := by
    rintro key ⟨before, c, later, rfl, hstores, _⟩
    obtain ⟨_, _, hkeys, _⟩ := hcalls c (by simp)
    apply hkeys
    cases c with
    | put type key' _ =>
        rw [Call.stores] at hstores
        split_ifs at hstores
        · exact hstores
        · exact absurd hstores List.not_mem_nil
    | batchPut type keys _ =>
        rw [Call.stores] at hstores
        split_ifs at hstores
        · exact hstores
        · exact absurd hstores List.not_mem_nil
    | _ => exact absurd hstores List.not_mem_nil
  intro key hkey key' hkey' heq
  rw [← Key.toBytes_ofBytes (hlength key hkey), heq, Key.toBytes_ofBytes (hlength key' hkey')]

end PlainMap

theorem Within.accepted {m : PlainMap} {calls : List Call} (h : Within m calls) :
    ∀ c ∈ calls, c.Accepted := by
  induction calls generalizing m with
  | nil => exact fun c hc => absurd hc List.not_mem_nil
  | cons c calls ih =>
      intro c' hc'
      rcases List.mem_cons.mp hc' with rfl | hc'
      · exact h.1.1
      · exact ih h.2 c' hc'

/-- What `size` returns is the number of keys stored since the last clear of the type. -/
theorem size_outcome {before later : List Call} {cacheType : ℤ}
    (h : Within PlainMap.empty (before ++ .size cacheType :: later)) :
    (PlainMap.outcomes (before ++ .size cacheType :: later))[before.length]? =
      some (.size (storedSinceClear cacheType before).ncard) := by
  have hsize : (Call.size cacheType).Accepted := h.accepted _ (by simp)
  have h0 : 0 ≤ cacheType := hsize.1
  have h1 : cacheType ≤ 0xFF := hsize.2.1
  have haccepted : ∀ c ∈ before, c.Accepted :=
    fun c hc => h.accepted c (List.mem_append_left _ hc)
  obtain ⟨rest, hrest⟩ := PlainMap.outcomes_prefix (before ++ [.size cacheType]) later
  rw [List.append_cons, ← hrest, PlainMap.outcomes_append_singleton, List.append_assoc,
    List.getElem?_append_right (by rw [PlainMap.length_outcomes]), PlainMap.length_outcomes,
    Nat.sub_self, ← PlainMap.size_run h0 h1 haccepted]
  rfl

/-! ## End to end -/

/-- In every run of a client's calls against a new server, however the streams are cut
into pieces: client and server stay in step, the run does not get stuck before
every call has returned, it ends, and `size` returns the number of keys stored
under its type since that was last cleared. -/
theorem session_in_step (hself : self.connected = true) (h : Within PlainMap.empty calls) :
    (∀ s, Session.Reaches self (Session.start calls) s → InStep calls s ∧
      ((∃ t, Session.Step self s t) ∨ s.returned = (PlainMap.outcomes calls).map .ok)) ∧
    Acc (fun t s => Session.Step self s t) (Session.start calls) ∧
    ∀ before cacheType later, calls = before ++ .size cacheType :: later →
      (PlainMap.outcomes calls)[before.length]? =
        some (.size (storedSinceClear cacheType before).ncard) := by
  have hstart := Session.inv_start h
  have hlowers : Lowers (Session.Step self) (Session.Inv calls) := Session.inv_lowers hself
  refine ⟨?_, hlowers.acc hstart, ?_⟩
  · intro s hs
    obtain ⟨n, hn⟩ := hlowers.reaches hstart hs
    exact ⟨hn.inStep, hn.progress⟩
  · rintro before cacheType later rfl
    exact size_outcome h

/-- A `put` and a `size`. -/
def putThenSize : List Call := [.put 1 (List.replicate 32 0) [7], .size 1]

/-- A put, and then the size of its type. -/
theorem session_in_step_putThenSize :
    (∀ s, Session.Reaches ⟨true⟩ (Session.start putThenSize) s → InStep putThenSize s ∧
      ((∃ t, Session.Step ⟨true⟩ s t) ∨
        s.returned = (PlainMap.outcomes putThenSize).map .ok)) ∧
    Acc (fun t s => Session.Step ⟨true⟩ s t) (Session.start putThenSize) ∧
    ∀ before cacheType later, putThenSize = before ++ .size cacheType :: later →
      (PlainMap.outcomes putThenSize)[before.length]? =
        some (.size (storedSinceClear cacheType before).ncard) := by
  apply session_in_step rfl
  refine ⟨⟨⟨by decide, by decide, by decide, trivial⟩, by decide, by decide, ?_, trivial⟩,
    ⟨⟨by decide, by decide, by decide, trivial⟩, by decide, by decide, ?_, ?_⟩, trivial⟩
  · show ([] : Bytes).length < 2 ^ 32
    decide
  · show (LittleEndian.bytes 8 _).length < 2 ^ 32
    rw [LittleEndian.length_bytes]
    decide
  · have hkeys : (PlainMap.empty.call (.put 1 (List.replicate 32 0) [7])).2.keys (typeByte 1) =
        {Key.ofBytes (List.replicate 32 0)} := by
      ext k
      show k ∈ (PlainMap.empty.put _ _ _).keys _ ↔ _
      rw [PlainMap.mem_keys_put, Set.mem_singleton_iff]
      exact ⟨fun h => h.elim (fun h => h.2.symm) fun h => absurd rfl h,
        fun h => Or.inl ⟨rfl, h.symm⟩⟩
    show ((PlainMap.empty.call _).2.keys (typeByte 1)).ncard < 2 ^ 64
    rw [hkeys, Set.ncard_singleton]
    decide

end AsuAscend.MicroKV
