/-
The server with its connections, and what every run of it keeps.

Each accepted connection has a thread that runs `HandleClient`. The thread acts
on the byte streams of its socket and, holding `store_mutex_`, on the store. The
clients are arbitrary: at any time one may send a request, whether or not earlier
ones have been answered, receive what has arrived, or close its socket.

## What is left open

No bound is put on the number of connections, on what clients send or on how the streams cut it. A
socket operation fails only after the client has closed. Locking and unlocking are steps of their
own: between them the thread computes the result of its access, and any other thread can do
anything but lock. `Label` and `World.log` are ghost state, for what is stated about a run; no step
looks at them.
-/
import AsuAscend.MicroKV.Wire
import AsuAscend.Lib.NumberedLists
import Mathlib.Logic.Relation
import Mathlib.Logic.Function.Basic

set_option autoImplicit false

open StreamPrograms SequentialObject NumberedLists

namespace AsuAscend.MicroKV

/-! ## The thread of one connection -/

/-- The server's end of a connection. -/
structure Endpoint where
  /-- sent by the client and not received -/
  up : Bytes
  server : Server (Option Bool)
  /-- sent by the server and not received -/
  down : Bytes

/-- What the threads share. -/
structure Shared (ι : Type) where
  store : KVStore
  /-- the thread that holds `store_mutex_`, and the store as it found it -/
  lock : Option (ι × KVStore)

/-- What a step of a thread does beside its socket. -/
inductive Label
  | silent
  | accessed (a : Act)
  | nextTurn

/-- One step of the thread of connection `i`. An access to the store takes two:
the thread locks the mutex and finds the store, then it leaves what the access
makes of what it found and unlocks. On a connection that the client has `closed`,
`recv` and `send` may fail. -/
inductive ThreadStep {ι : Type} (i : ι) (closed : Bool) :
    Endpoint → Shared ι → Label → Endpoint → Shared ι → Prop
  | recv {e sh max next} (c : ℕ) (hserver : e.server = .recv max next) (hpos : 0 < c)
      (hmax : c ≤ max) (hup : c ≤ e.up.length) :
      ThreadStep i closed e sh .silent
        { e with up := e.up.drop c, server := next (some (e.up.take c)) } sh
  | recvEnds {e sh max next} (hserver : e.server = .recv max next) (hclosed : closed = true)
      (hup : e.up = []) : ThreadStep i closed e sh .silent { e with server := next (some []) } sh
  | recvFails {e sh max next} (hserver : e.server = .recv max next) (hclosed : closed = true) :
      ThreadStep i closed e sh .silent { e with server := next none } sh
  | send {e sh data next} (c : ℕ+) (hserver : e.server = .send data next)
      (hlen : (c : ℕ) ≤ data.length) :
      ThreadStep i closed e sh .silent
        { e with server := next (some c), down := e.down ++ data.take c } sh
  | sendFails {e sh data next} (hserver : e.server = .send data next) (hclosed : closed = true) :
      ThreadStep i closed e sh .silent { e with server := next none } sh
  | lock {e sh o next} (hserver : e.server = .op o next) (hfree : sh.lock = none) :
      ThreadStep i closed e sh .silent e { sh with lock := some (i, sh.store) }
  | unlock {e sh o next found} (hserver : e.server = .op o next)
      (hheld : sh.lock = some (i, found)) :
      ThreadStep i closed e sh (.accessed ⟨o, (KVStore.step o found).1⟩)
        { e with server := next (KVStore.step o found).1 }
        { store := (KVStore.step o found).2, lock := none }
  | turn {e sh} (hserver : e.server = .ret none) :
      ThreadStep i closed e sh .nextTurn { e with server := handleClientTurn } sh

/-! ## The whole system -/

/-- A connection, with both ends. -/
structure Connection extends Endpoint where
  /-- the bytes that the client's `send` calls have not taken yet -/
  outbox : Bytes
  /-- everything the client has received -/
  inbox : Bytes
  /-- the requests the client has sent, in order -/
  issued : List Request
  /-- how many turns the thread has made -/
  served : ℕ
  closed : Bool

/-- A connection that has just been accepted. -/
def Connection.fresh : Connection where
  up := []
  server := handleClientTurn
  down := []
  outbox := []
  inbox := []
  issued := []
  served := 0
  closed := false

/-- One access to the store, made for request number `req` of connection `conn`. -/
structure Entry (ι : Type) where
  conn : ι
  req : ℕ
  act : Act

structure World (ι : Type) where
  conn : ι → Connection
  shared : Shared ι
  /-- the accesses made so far -/
  log : List (Entry ι)

variable {ι : Type}

/-- A server that has just started. -/
def World.init : World ι where
  conn := fun _ => Connection.fresh
  shared := ⟨KVStore.empty, none⟩
  log := []

/-- The connection after a step of its thread. -/
def Connection.advance (c : Connection) (label : Label) (e : Endpoint) : Connection :=
  { c with
    toEndpoint := e
    served := match label with
      | .nextTurn => c.served + 1
      | .silent => c.served
      | .accessed _ => c.served }

/-- The log entries of a step. -/
def Label.entries (label : Label) (i : ι) (req : ℕ) : List (Entry ι) :=
  match label with
  | .accessed a => [⟨i, req, a⟩]
  | .silent => []
  | .nextTurn => []

variable [DecidableEq ι]

def World.setConn (w : World ι) (i : ι) (c : Connection) : World ι :=
  { w with conn := Function.update w.conn i c }

inductive World.Step : World ι → World ι → Prop
  | issue {w : World ι} (i : ι) (r : Request) (hr : r.Valid) (hopen : (w.conn i).closed = false) :
      Step w (w.setConn i { w.conn i with
        issued := (w.conn i).issued ++ [r], outbox := (w.conn i).outbox ++ r.encode })
  | transmit {w : World ι} (i : ι) (c : ℕ) (hopen : (w.conn i).closed = false) :
      Step w (w.setConn i { w.conn i with
        outbox := (w.conn i).outbox.drop c, up := (w.conn i).up ++ (w.conn i).outbox.take c })
  | receive {w : World ι} (i : ι) (c : ℕ) (hopen : (w.conn i).closed = false) :
      Step w (w.setConn i { w.conn i with
        down := (w.conn i).down.drop c, inbox := (w.conn i).inbox ++ (w.conn i).down.take c })
  | close {w : World ι} (i : ι) :
      Step w (w.setConn i { w.conn i with closed := true, outbox := [] })
  | thread {w : World ι} (i : ι) {label : Label} {e : Endpoint} {sh : Shared ι}
      (h : ThreadStep i (w.conn i).closed (w.conn i).toEndpoint w.shared label e sh) :
      Step w { conn := Function.update w.conn i ((w.conn i).advance label e)
               shared := sh
               log := w.log ++ label.entries i (w.conn i).served }

/-- Any number of steps. -/
def World.Reaches : World ι → World ι → Prop := Relation.ReflTransGen World.Step

end AsuAscend.MicroKV
