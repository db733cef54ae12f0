/-
The Python client.

The model follows `python/microkv/client.py` function by function: the checks of the
arguments, the packing of the request, the exchange over the socket and the parsing of the
answer, each with every error that it can raise. Arguments that are no `int` or `bytes`
raise `TypeError` in the source and have no counterpart here.

## The reads of a payload

`payload[i]` and `unpack_from` fail past the end of the bytes: the first raises
`IndexError`, the second `struct.error`. The parsers below make these reads as they stand in
the source, failures included, and leave it to `MicroKV.Payloads` to show that no byte string
whatsoever makes one of them fail.

A call is a program of `Lib.StreamPrograms` without operations on a store: the client
reaches the store only through its socket.
-/
import AsuAscend.Lib.StreamPrograms
import AsuAscend.MicroKV.Protocol

set_option autoImplicit false

open StreamPrograms

namespace AsuAscend.MicroKV

inductive ClientError
  | valueError (message : String)
  /-- `payload[i]` past the end -/
  | indexError
  /-- `struct.error`: a number does not fit its field, or a buffer is too short for it -/
  | structError
  | microKVError (message : String)
  | protocolError (message : String)
  /-- the socket failed -/
  | osError
deriving DecidableEq

/-- The client reaches the store only through its socket. -/
abbrev ClientIO := Prog Empty (fun e => e.elim)

abbrev Client := ExceptT ClientError ClientIO

structure KVStoreClient where
  /-- `self._sock is not None` -/
  connected : Bool

def validateKey (key : Bytes) : Except ClientError Unit :=
  if key.length ≠ 32 then
    throw (.valueError ("key must be 32 bytes, got " ++ toString key.length))
  else
    return ()

def validateType (cacheType : ℤ) : Except ClientError Unit :=
  if cacheType < 0 ∨ cacheType > 0xFF then
    throw (.valueError "cache_type must fit uint8")
  else
    return ()

/-- `REQUEST_HEADER.pack(command, cache_type, 0, key_len, val_len)` -/
def packRequestHeader (command : Command) (cacheType : ℤ) (keyLen valLen : ℕ) :
    Except ClientError Bytes :=
  if 0 ≤ cacheType ∧ cacheType < 2 ^ 8 ∧ keyLen < 2 ^ 16 ∧ valLen < 2 ^ 32 then
    return command.code :: UInt8.ofNat cacheType.toNat :: (LittleEndian.bytes 2 0 ++
      LittleEndian.bytes 2 keyLen ++ LittleEndian.bytes 4 valLen)
  else
    throw .structError

/-- `U32.pack(n)` -/
def packU32 (n : ℕ) : Except ClientError Bytes :=
  if n < 2 ^ 32 then return LittleEndian.bytes 4 n else throw .structError

/-- The four bytes at `offset`, as a number -/
def unpackU32 (payload : Bytes) (offset : ℕ) : ℕ :=
  LittleEndian.value ((payload.drop offset).take 4)

/-- `U32.unpack_from(payload, offset)[0]` -/
def unpackFrom (payload : Bytes) (offset : ℕ) : Except ClientError ℕ :=
  if offset + 4 ≤ payload.length then return unpackU32 payload offset else throw .structError

/-- `payload[i]` -/
def itemAt (payload : Bytes) (i : ℕ) : Except ClientError UInt8 :=
  match payload[i]? with
  | some b => return b
  | none => throw .indexError

/-- `RESPONSE_HEADER.unpack(response_header)`: the status and the length of the payload -/
def unpackResponseHeader (header : Bytes) : Except ClientError (UInt8 × ℕ) :=
  if header.length = kResponseHeaderLength then
    return (header.getD 0 0, unpackU32 header 1)
  else
    throw .structError

/-- `U64.unpack(payload)[0]` -/
def unpackU64 (payload : Bytes) : Except ClientError ℕ :=
  if payload.length = 8 then return LittleEndian.value payload else throw .structError

def sendall (data : Bytes) : Client Unit := do
  let sent ← (sendLoop data : ClientIO Bool)
  if sent then return () else throw .osError

def recvExact (length : ℕ) : Client Bytes := do
  match ← (recvLoop length [] : ClientIO _) with
  | .ok data => return data
  | .error .ended => throw (.protocolError "socket closed while reading response")
  | .error .failed => throw .osError

def packKeys (keys : List Bytes) : Except ClientError Bytes := do
  let mut body ← packU32 keys.length
  for key in keys do
    validateKey key
    body := body ++ key
  return body

/-- The loop of `_parse_batch_get_payload`; returns the values and the offset. -/
def parseBatchGetItems (payload : Bytes) :
    ℕ → ℕ → List (Option Bytes) → Except ClientError (List (Option Bytes) × ℕ)
  | 0, offset, values => return (values, offset)
  | count + 1, offset, values =>
      if offset + 5 > payload.length then
        throw (.protocolError "truncated batch_get item header")
      else do
        let flag ← itemAt payload offset
        let valueLen ← unpackFrom payload (offset + 1)
        let start := offset + 1 + 4
        if start + valueLen > payload.length then
          throw (.protocolError "truncated batch_get item value")
        else
          let value := (payload.drop start).take valueLen
          parseBatchGetItems payload count (start + valueLen)
            (values ++ [if flag ≠ 0 then some value else none])

def parseBatchGetPayload (payload : Bytes) : Except ClientError (List (Option Bytes)) := do
  if payload.length < 4 then
    throw (.protocolError "batch_get payload missing count")
  else
    let count ← unpackFrom payload 0
    let (values, offset) ← parseBatchGetItems payload count 4 []
    if offset ≠ payload.length then
      throw (.protocolError "batch_get payload has trailing bytes")
    else
      return values

def parseBatchExistsPayload (payload : Bytes) : Except ClientError (List Bool) := do
  if payload.length < 4 then
    throw (.protocolError "batch_exists payload missing count")
  else
    let count ← unpackFrom payload 0
    let expected := 4 + count
    if payload.length ≠ expected then
      throw (.protocolError ("batch_exists payload length must be " ++ toString expected ++
        ", got " ++ toString payload.length))
    else
      (List.range count).mapM fun i => do
        let flag ← itemAt payload (4 + i)
        return flag ≠ 0

def raiseUnlessOk (status : UInt8) : Except ClientError Unit :=
  if status = Status.ok.code then
    return ()
  else if status = Status.badRequest.code then
    throw (.protocolError "server rejected request as bad protocol")
  else if status = Status.internalError.code then
    throw (.microKVError "server returned internal error")
  else
    throw (.microKVError ("server returned status " ++ toString status))

namespace KVStoreClient

variable (self : KVStoreClient)

def requestRaw (command : Command) (cacheType : ℤ) (keyLen valLen : ℕ) (body : Bytes) :
    Client (UInt8 × Bytes) :=
  if self.connected = false then
    throw (.microKVError "client is closed")
  else do
    let header ← packRequestHeader command cacheType keyLen valLen
    sendall (header ++ body)
    let responseHeader ← recvExact kResponseHeaderLength
    let (status, payloadLen) ← unpackResponseHeader responseHeader
    let payload ← recvExact payloadLen
    return (status, payload)

def request (command : Command) (cacheType : ℤ) (key value : Bytes) : Client (UInt8 × Bytes) :=
  self.requestRaw command cacheType key.length value.length (key ++ value)

def put (cacheType : ℤ) (key value : Bytes) : Client Bool := do
  validateType cacheType
  validateKey key
  let (status, _) ← self.request .put cacheType key value
  return status = Status.ok.code

def get (cacheType : ℤ) (key : Bytes) : Client (Option Bytes) := do
  validateType cacheType
  validateKey key
  let (status, payload) ← self.request .get cacheType key []
  if status = Status.notFound.code then
    return none
  else
    raiseUnlessOk status
    return some payload

def exists_ (cacheType : ℤ) (key : Bytes) : Client Bool := do
  validateType cacheType
  validateKey key
  let (status, payload) ← self.request .exists_ cacheType key []
  raiseUnlessOk status
  if payload.length ≠ 1 then
    throw (.protocolError ("exists response length must be 1, got " ++ toString payload.length))
  else
    let flag ← itemAt payload 0
    return flag ≠ 0

/-- The body of a `batch_put`, built item by item. -/
def packItems (keys values : List Bytes) : Except ClientError Bytes := do
  let mut body ← packU32 keys.length
  for (key, value) in keys.zip values do
    validateKey key
    let length ← packU32 value.length
    body := body ++ key ++ length ++ value
  return body

def batchPut (cacheType : ℤ) (keys values : List Bytes) : Client Bool := do
  validateType cacheType
  if keys.length ≠ values.length then
    throw (.valueError "keys and values must have the same length")
  else
    let body ← packItems keys values
    let (status, _) ← self.requestRaw .batchPut cacheType 32 0 body
    return status = Status.ok.code

def batchGet (cacheType : ℤ) (keys : List Bytes) : Client (List (Option Bytes)) := do
  validateType cacheType
  let body ← packKeys keys
  let (status, payload) ← self.requestRaw .batchGet cacheType 32 0 body
  raiseUnlessOk status
  parseBatchGetPayload payload

def batchExists (cacheType : ℤ) (keys : List Bytes) : Client (List Bool) := do
  validateType cacheType
  let body ← packKeys keys
  let (status, payload) ← self.requestRaw .batchExists cacheType 32 0 body
  raiseUnlessOk status
  parseBatchExistsPayload payload

def clear (cacheType : ℤ) : Client Unit := do
  validateType cacheType
  let (status, _) ← self.requestRaw .clear cacheType 0 0 []
  raiseUnlessOk status

def size (cacheType : ℤ) : Client ℕ := do
  validateType cacheType
  let (status, payload) ← self.requestRaw .size cacheType 0 0 []
  raiseUnlessOk status
  if payload.length ≠ 8 then
    throw (.protocolError ("size response length must be 8, got " ++ toString payload.length))
  else
    unpackU64 payload

end KVStoreClient

end AsuAscend.MicroKV
