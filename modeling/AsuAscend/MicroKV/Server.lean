/-
The thread that serves one client connection.

Each function is the program of the C++ function of its name: the calls it makes
on the socket, and its accesses to the store, each of which holds
`store_mutex_`. `EINTR` retries an unchanged call, so a `recv` or `send` here is
the call that ends the retries.

## What is left out

The accept loop and the thread per connection are part of `Network`. A rejected request is answered
and the connection is closed, with the rest of the request unread; that a turn has come to its end
without closing is the result `none`, after which the thread starts over.

The lengths of a response are cut to 32 bits as in the source, after the check that refuses a
payload which is longer than that.
-/
import AsuAscend.Lib.StreamPrograms
import AsuAscend.MicroKV.Store

set_option autoImplicit false

open StreamPrograms

namespace AsuAscend.MicroKV

/-- Code of the server thread. -/
abbrev Server := Prog StoreOp StoreOp.Res

/-- An access to the store under the lock guard. -/
def access (o : StoreOp) : Server o.Res := Prog.perform o

def kMaxBatchCount : ℕ := 1000000

/-- The buffer, or `none` where the C++ function returns `false`. -/
def readExact (len : ℕ) : Server (Option Bytes) := do
  match ← recvLoop len [] with
  | .ok data => return some data
  | .error _ => return none

def writeAll (data : Bytes) : Server Bool := sendLoop data

def readU32 : Server (Option UInt32) := do
  let some buf ← readExact 4 | return none
  return some (loadLe32 buf)

def readKey : Server (Option Key) := do
  let some data ← readExact kKeyLength | return none
  return some (Key.ofBytes data)

def readBytes (len : UInt32) : Server (Option Bytes) :=
  if len = 0 then return some [] else readExact len.toNat

def responseHeader (status : Status) (payload : Bytes) : Bytes :=
  status.code :: storeLe32 (UInt32.ofNat payload.length)

def sendResponse (status : Status) (payload : Bytes) : Server Bool :=
  if payload.length > 4294967295 then
    return false
  else do
    let sent ← writeAll (responseHeader status payload)
    if sent then
      if payload.isEmpty then return true else writeAll payload
    else
      return false

/-- The answer to a request that the header or the count rules out. -/
def rejectRequest : Server Bool := do
  let _ ← sendResponse .badRequest []
  return false

def flagByte (b : Bool) : UInt8 := if b then 1 else 0

def batchPutItems (type : UInt8) : ℕ → Server Bool
  | 0 => return true
  | count + 1 => do
      let some key ← readKey | return false
      let some itemLen ← readU32 | return false
      let some value ← readBytes itemLen | return false
      let _ ← access (StoreOp.put type key value)
      batchPutItems type count

/-- One item of a `BatchGet` payload. -/
def appendValue (payload : Bytes) (value : Option Bytes) : Bytes :=
  let payload := payload ++ [flagByte value.isSome]
  match value with
  | some value => appendLe32 payload (UInt32.ofNat value.length) ++ value
  | none => appendLe32 payload 0

def batchGetItems (type : UInt8) : ℕ → Bytes → Server (Option Bytes)
  | 0, payload => return some payload
  | count + 1, payload => do
      let some key ← readKey | return none
      let value : Option Bytes ← access (StoreOp.get type key)
      batchGetItems type count (appendValue payload value)

def batchExistsItems (type : UInt8) : ℕ → Bytes → Server (Option Bytes)
  | 0, payload => return some payload
  | count + 1, payload => do
      let some key ← readKey | return none
      let found ← access (StoreOp.exists_ type key)
      batchExistsItems type count (payload ++ [flagByte found])

/-- `HandleRequest`: `false` closes the connection. -/
def handleRequest (header : Bytes) : Server Bool :=
  let command := Command.ofByte? (header.getD 0 0)
  let type := header.getD 1 0
  let keyLen := loadLe16 (header.drop 4)
  let valLen := loadLe32 (header.drop 6)
  match command with
  | some .put => do
      if keyLen.toNat ≠ kKeyLength then
        rejectRequest
      else
        let some key ← readKey | return false
        let some value ← readBytes valLen | return false
        let _ ← access (StoreOp.put type key value)
        sendResponse .ok []
  | some .get => do
      if keyLen.toNat ≠ kKeyLength ∨ valLen ≠ 0 then
        rejectRequest
      else
        let some key ← readKey | return false
        let value : Option Bytes ← access (StoreOp.get type key)
        match value with
        | none => sendResponse .notFound []
        | some value => sendResponse .ok value
  | some .exists_ => do
      if keyLen.toNat ≠ kKeyLength ∨ valLen ≠ 0 then
        rejectRequest
      else
        let some key ← readKey | return false
        let found ← access (StoreOp.exists_ type key)
        sendResponse .ok [flagByte found]
  | some .batchPut => do
      if keyLen.toNat ≠ kKeyLength ∨ valLen ≠ 0 then
        rejectRequest
      else
        let some count ← readU32 | rejectRequest
        if count.toNat > kMaxBatchCount then
          rejectRequest
        else
          let done ← batchPutItems type count.toNat
          if done then sendResponse .ok [] else return false
  | some .batchGet => do
      if keyLen.toNat ≠ kKeyLength ∨ valLen ≠ 0 then
        rejectRequest
      else
        let some count ← readU32 | rejectRequest
        if count.toNat > kMaxBatchCount then
          rejectRequest
        else
          let some payload ← batchGetItems type count.toNat (appendLe32 [] count) | return false
          sendResponse .ok payload
  | some .batchExists => do
      if keyLen.toNat ≠ kKeyLength ∨ valLen ≠ 0 then
        rejectRequest
      else
        let some count ← readU32 | rejectRequest
        if count.toNat > kMaxBatchCount then
          rejectRequest
        else
          let some payload ← batchExistsItems type count.toNat (appendLe32 [] count) | return false
          sendResponse .ok payload
  | some .clear => do
      if keyLen ≠ 0 ∨ valLen ≠ 0 then
        rejectRequest
      else
        access (StoreOp.clear type)
        sendResponse .ok []
  | some .size => do
      if keyLen ≠ 0 ∨ valLen ≠ 0 then
        rejectRequest
      else
        let size ← access (StoreOp.size type)
        sendResponse .ok (appendLe64 [] (UInt64.ofNat size))
  | none => rejectRequest

/-- One turn of the loop of `HandleClient`: `none` goes round again, `some` is
what the function returns. -/
def handleClientTurn : Server (Option Bool) := do
  let some header ← readExact kRequestHeaderLength | return some true
  let handled ← handleRequest header
  if handled then return none else return some false

end AsuAscend.MicroKV
