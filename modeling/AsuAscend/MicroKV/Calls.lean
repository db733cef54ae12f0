/-
The calls of a client, what they send, and what they make of a response.

`Call` is a call of a `KVStoreClient` method with its arguments, `PlainMap.call` what
it does to a plain map. `client_meets`: the code of the call writes exactly the
bytes of its request, reads exactly the bytes of the response and returns what
the plain map returns.

## Against one fixed response

`Meets` speaks of a program and the message that it finds in front of it. For a client that message
is the response of a server that keeps to the plain map, so the calls can be looked at one by one,
without any server: the end-to-end theorem of `Session` puts the two sides together. What is asked
of a call is that its arguments are accepted and that its lengths fit their fields
(`Call.Within`); every other failure of the client then has no way to occur.
-/
import AsuAscend.MicroKV.Payloads

set_option autoImplicit false

open StreamPrograms SequentialObject

namespace AsuAscend.MicroKV

inductive Call
  | put (cacheType : ℤ) (key value : Bytes)
  | get (cacheType : ℤ) (key : Bytes)
  | exists_ (cacheType : ℤ) (key : Bytes)
  | batchPut (cacheType : ℤ) (keys values : List Bytes)
  | batchGet (cacheType : ℤ) (keys : List Bytes)
  | batchExists (cacheType : ℤ) (keys : List Bytes)
  | clear (cacheType : ℤ)
  | size (cacheType : ℤ)

/-- What a call returns. -/
inductive Outcome
  | put (done : Bool)
  | get (value : Option Bytes)
  | exists_ (found : Bool)
  | batchPut (done : Bool)
  | batchGet (values : List (Option Bytes))
  | batchExists (found : List Bool)
  | clear
  | size (count : ℕ)

/-- The code that a call runs. -/
def Call.program (self : KVStoreClient) : Call → Client Outcome
  | put cacheType key value => Outcome.put <$> self.put cacheType key value
  | get cacheType key => Outcome.get <$> self.get cacheType key
  | exists_ cacheType key => Outcome.exists_ <$> self.exists_ cacheType key
  | batchPut cacheType keys values => Outcome.batchPut <$> self.batchPut cacheType keys values
  | batchGet cacheType keys => Outcome.batchGet <$> self.batchGet cacheType keys
  | batchExists cacheType keys => Outcome.batchExists <$> self.batchExists cacheType keys
  | clear cacheType => (fun _ => Outcome.clear) <$> self.clear cacheType
  | size cacheType => Outcome.size <$> self.size cacheType

/-- The wire form of a cache type. -/
def typeByte (cacheType : ℤ) : UInt8 := UInt8.ofNat cacheType.toNat

def Call.request : Call → Request
  | put cacheType key value => .put (typeByte cacheType) (Key.ofBytes key) value
  | get cacheType key => .get (typeByte cacheType) (Key.ofBytes key)
  | exists_ cacheType key => .exists_ (typeByte cacheType) (Key.ofBytes key)
  | batchPut cacheType keys values =>
      .batchPut (typeByte cacheType) ((keys.map Key.ofBytes).zip values)
  | batchGet cacheType keys => .batchGet (typeByte cacheType) (keys.map Key.ofBytes)
  | batchExists cacheType keys => .batchExists (typeByte cacheType) (keys.map Key.ofBytes)
  | clear cacheType => .clear (typeByte cacheType)
  | size cacheType => .size (typeByte cacheType)

/-- What a call does to a plain map: a batch acts item by item, in order. -/
noncomputable def PlainMap.call (m : PlainMap) : Call → Outcome × PlainMap
  | .put cacheType key value =>
      (.put true, m.put (typeByte cacheType) (Key.ofBytes key) value)
  | .get cacheType key => (.get (m (typeByte cacheType, Key.ofBytes key)), m)
  | .exists_ cacheType key => (.exists_ (m (typeByte cacheType, Key.ofBytes key)).isSome, m)
  | .batchPut cacheType keys values =>
      (.batchPut true, (keys.zip values).foldl
        (fun m item => m.put (typeByte cacheType) (Key.ofBytes item.1) item.2) m)
  | .batchGet cacheType keys =>
      (.batchGet (keys.map fun key => m (typeByte cacheType, Key.ofBytes key)), m)
  | .batchExists cacheType keys =>
      (.batchExists (keys.map fun key => (m (typeByte cacheType, Key.ofBytes key)).isSome), m)
  | .clear cacheType => (.clear, m.clear (typeByte cacheType))
  | .size cacheType => (.size (m.size (typeByte cacheType)), m)

namespace Call

def cacheType : Call → ℤ
  | put cacheType .. | get cacheType .. | exists_ cacheType .. | batchPut cacheType ..
  | batchGet cacheType .. | batchExists cacheType .. | clear cacheType | size cacheType => cacheType

def keys : Call → List Bytes
  | put _ key _ | get _ key | exists_ _ key => [key]
  | batchPut _ keys _ | batchGet _ keys | batchExists _ keys => keys
  | clear _ | size _ => []

/-- The arguments are ones that the client accepts. -/
def Accepted (c : Call) : Prop :=
  0 ≤ c.cacheType ∧ c.cacheType ≤ 0xFF ∧ (∀ key ∈ c.keys, key.length = 32) ∧
    match c with
    | batchPut _ keys values => keys.length = values.length
    | _ => True

/-- The results that the accesses of the call have on a plain map. -/
noncomputable def acts (c : Call) (m : PlainMap) : List Act := trace PlainMap.step m c.request.items

/-- The call is accepted, a batch is at most a million items long, and the bodies
of request and response are below 2^32 bytes. (A count of 2^64 keys, which
`size_t` could not hold either, is none that `size` returns.) -/
def Within (c : Call) (m : PlainMap) : Prop :=
  c.Accepted ∧ c.keys.length ≤ kMaxBatchCount ∧ c.request.body.length < 2 ^ 32 ∧
    (c.request.answer (c.acts m)).2.length < 2 ^ 32 ∧
    match c with
    | size cacheType => m.size (typeByte cacheType) < 2 ^ 64
    | _ => True

end Call

/-! ## Running the client's code -/

abbrev ClientTalk := Talk Empty (fun e => e.elim)

variable {α β : Type}

/-- A client makes no operation on a store of its own. -/
theorem quiet_client (p : ClientIO α) : Quiet (fun _ => True) p := by
  induction p with
  | ret a => trivial
  | recv n k ih => exact ih
  | send d k ih => exact ih
  | op o k ih => exact o.elim

/-- Two steps of a client: the second is made if the first has not raised. -/
theorem meets_clientBind {said : Bytes} {Post : Except ClientError β → ClientTalk → Prop}
    {x : Client α} {f : α → Client β} {t : ClientTalk}
    (h : Meets said (fun _ => True) (fun r t => match r with
      | .ok a => Meets said (fun _ => True) Post (f a).run t
      | .error e => Post (.error e) t) x.run t) :
    Meets said (fun _ => True) Post (x >>= f).run t := by
  show Meets _ _ _ (x.run >>= ExceptT.bindCont f) t
  apply Meets.bind
  apply h.mono
  · intro a _
    exact quiet_client _
  · intro r t h
    cases r with
    | ok a => exact h
    | error e => exact h

/-- A check that passes leaves the rest of the call. -/
theorem lift_ok_bind (a : α) (f : α → Client β) :
    ((liftM (Except.ok a : Except ClientError α) : Client α) >>= f) = f a := rfl

/-- The whole of the data is written, in however many pieces the socket takes. -/
theorem meets_sendall {said : Bytes} {Post : Except ClientError Unit → ClientTalk → Prop}
    (data : Bytes) {t : ClientTalk} (hP : Post (.ok ()) { t with out := t.out ++ data }) :
    Meets said (fun _ => True) Post (sendall data).run t := by
  apply Meets.bind
  apply Meets.bind
  apply meets_sendLoop
  · exact quiet_client _
  · exact hP

/-- So many bytes are read, in however many pieces they come. -/
theorem meets_recvExact {said : Bytes} {Post : Except ClientError Bytes → ClientTalk → Prop}
    (n : ℕ) {t : ClientTalk} (hlen : n ≤ t.input.length) (hsaid : n = 0 ∨ t.out = said)
    (hP : Post (.ok (t.input.take n)) { t with input := t.input.drop n }) :
    Meets said (fun _ => True) Post (recvExact n).run t := by
  apply Meets.bind
  apply Meets.bind
  apply meets_recvLoop n [] hlen hsaid
  · intro e
    exact quiet_client _
  · exact hP

theorem validateType_ok {cacheType : ℤ} (h0 : 0 ≤ cacheType) (h1 : cacheType ≤ 0xFF) :
    validateType cacheType = .ok () := if_neg (by omega)

theorem validateKey_ok {key : Bytes} (h : key.length = 32) : validateKey key = .ok () :=
  if_neg (not_not_intro h)

/-- A request that fits its header is written whole, then its response read whole. -/
theorem meets_requestRaw {self : KVStoreClient} (hself : self.connected = true) {command : Command}
    {cacheType : ℤ} (h0 : 0 ≤ cacheType) (h1 : cacheType ≤ 0xFF) {keyLen valLen : ℕ}
    (hkey : keyLen < 2 ^ 16) (hval : valLen < 2 ^ 32) {body : Bytes} {answer : Status × Bytes}
    (hanswer : answer.2.length < 2 ^ 32)
    {Post : Except ClientError (UInt8 × Bytes) → ClientTalk → Prop}
    (hP : Post (.ok (answer.1.code, answer.2))
      ⟨[], [], [], Request.header command (typeByte cacheType) keyLen valLen ++ body⟩) :
    Meets (Request.header command (typeByte cacheType) keyLen valLen ++ body) (fun _ => True) Post
      (self.requestRaw command cacheType keyLen valLen body).run ⟨response answer, [], [], []⟩ := by
  -- `struct.pack` and `struct.unpack` cannot raise on fields of these sizes
  have hpack : packRequestHeader command cacheType keyLen valLen =
      .ok (Request.header command (typeByte cacheType) keyLen valLen) :=
    if_pos ⟨h0, by omega, hkey, hval⟩
  have hlen : (response answer).take kResponseHeaderLength =
      answer.1.code :: LittleEndian.bytes 4 answer.2.length := rfl
  have hrest : (response answer).drop kResponseHeaderLength = answer.2 := rfl
  unfold KVStoreClient.requestRaw
  rw [if_neg (by rw [hself]; decide), hpack, lift_ok_bind]
  apply meets_clientBind
  apply meets_sendall
  apply meets_clientBind
  refine meets_recvExact kResponseHeaderLength ?_ (Or.inr ?_) ?_
  · show 5 ≤ (response answer).length
    unfold response
    rw [List.length_cons, List.length_append, LittleEndian.length_bytes]
    omega
  · rfl
  · dsimp only
    rw [hlen, hrest]
    have hfive : (answer.1.code :: LittleEndian.bytes 4 answer.2.length).length =
        kResponseHeaderLength := by
      rw [List.length_cons, LittleEndian.length_bytes]
      rfl
    have hvalue : unpackU32 (answer.1.code :: LittleEndian.bytes 4 answer.2.length) 1 =
        answer.2.length := LittleEndian.value_bytes_of_lt (w := 4) hanswer
    have hheader : unpackResponseHeader (answer.1.code :: LittleEndian.bytes 4 answer.2.length) =
        .ok (answer.1.code, answer.2.length) := by
      unfold unpackResponseHeader
      rw [if_pos hfive, hvalue]
      rfl
    rw [hheader, lift_ok_bind]
    apply meets_clientBind
    refine meets_recvExact _ (Nat.le_refl _) (Or.inr ?_) ?_
    · rfl
    · dsimp only
      rw [List.take_length, List.drop_length]
      exact hP

/-! ## Bodies and payloads -/

/-- A loop that appends to a buffer. -/
theorem forIn_append {γ : Type} (xs : List γ)
    (f : γ → Bytes → Except ClientError (ForInStep Bytes)) (g : γ → Bytes)
    (hf : ∀ x ∈ xs, ∀ b, f x b = .ok (.yield (b ++ g x))) (b : Bytes) :
    forIn xs b f = .ok (b ++ xs.flatMap g) := by
  induction xs generalizing b with
  | nil => rw [List.flatMap_nil, List.append_nil]; rfl
  | cons x xs ih =>
      rw [List.forIn_cons, hf x List.mem_cons_self, List.flatMap_cons, ← List.append_assoc]
      exact ih (fun x' hx' => hf x' (List.mem_cons_of_mem _ hx')) _

theorem Key.toBytes_ofBytes {key : Bytes} (h : key.length = 32) :
    (Key.ofBytes key).toBytes = key := by
  show key.takeD kKeyLength 0 = key
  rw [List.takeD_eq_take _ (by rw [h]; decide), List.take_of_length_le (by rw [h]; decide)]

theorem packU32_ok {n : ℕ} (h : n < 2 ^ 32) : packU32 n = .ok (LittleEndian.bytes 4 n) := if_pos h

/-- The body of a batch of keys: the count, and the keys one after the other. -/
theorem packKeys_ok {keys : List Bytes} (hcount : keys.length < 2 ^ 32)
    (hkeys : ∀ key ∈ keys, key.length = 32) :
    packKeys keys = .ok (LittleEndian.bytes 4 (keys.map Key.ofBytes).length ++
      (keys.map Key.ofBytes).flatMap Key.toBytes) := by
  unfold packKeys
  rw [packU32_ok hcount, List.length_map, List.flatMap_map]
  show (forIn keys (LittleEndian.bytes 4 keys.length) _ >>=
    fun body => (pure body : Except ClientError Bytes)) = _
  rw [forIn_append keys _ fun key => (Key.ofBytes key).toBytes]
  · rfl
  · intro key hkey b
    rw [validateKey_ok (hkeys key hkey), Key.toBytes_ofBytes (hkeys key hkey)]
    rfl

theorem packItems_ok {keys values : List Bytes} (hcount : keys.length < 2 ^ 32)
    (hlen : keys.length = values.length) (hkeys : ∀ key ∈ keys, key.length = 32)
    (hvalues : ∀ value ∈ values, value.length < 2 ^ 32) :
    KVStoreClient.packItems keys values =
      .ok (LittleEndian.bytes 4 ((keys.map Key.ofBytes).zip values).length ++
        ((keys.map Key.ofBytes).zip values).flatMap Request.putItem) := by
  have hzip : (keys.map Key.ofBytes).zip values =
      (keys.zip values).map fun item => (Key.ofBytes item.1, item.2) := by
    rw [List.zip_map_left]
    rfl
  unfold KVStoreClient.packItems
  rw [packU32_ok hcount, hzip, List.length_map, List.length_zip, ← hlen, Nat.min_self,
    List.flatMap_map]
  show (forIn (keys.zip values) (LittleEndian.bytes 4 keys.length) _ >>=
    fun body => (pure body : Except ClientError Bytes)) = _
  rw [forIn_append (keys.zip values) _ fun item => Request.putItem (Key.ofBytes item.1, item.2)]
  · rfl
  · rintro ⟨key, value⟩ hitem b
    obtain ⟨hkey, hvalue⟩ := List.of_mem_zip hitem
    dsimp only
    rw [validateKey_ok (hkeys key hkey), packU32_ok (hvalues value hvalue), Request.putItem,
      Key.toBytes_ofBytes (hkeys key hkey)]
    show Except.ok (ForInStep.yield (b ++ key ++ LittleEndian.bytes 4 value.length ++ value)) = _
    simp only [List.append_assoc]

/-! ## What the accesses of a call do -/

/-- Accesses that change nothing have the results they have one by one. -/
theorem trace_reads {ops : List StoreOp} {m : PlainMap}
    (h : ∀ o ∈ ops, (PlainMap.step o m).2 = m) :
    trace PlainMap.step m ops = ops.map (fun o => ⟨o, (PlainMap.step o m).1⟩) ∧
      after PlainMap.step m ops = m := by
  induction ops with
  | nil => exact ⟨rfl, rfl⟩
  | cons o ops ih =>
      obtain ⟨htrace, hafter⟩ := ih fun o' ho' => h o' (List.mem_cons_of_mem _ ho')
      have ho := h o List.mem_cons_self
      rw [trace, after_cons, ho, htrace, hafter]
      exact ⟨rfl, rfl⟩

/-- The accesses of a call, in order, do what the call does. -/
theorem call_after (c : Call) (m : PlainMap) :
    after PlainMap.step m c.request.items = (m.call c).2 := by
  cases c with
  | put _ _ _ => rfl
  | get _ _ => rfl
  | exists_ _ _ => rfl
  | clear _ => rfl
  | size _ => rfl
  | batchGet cacheType keys =>
      apply (trace_reads _).2
      intro o ho
      obtain ⟨key, _, rfl⟩ := List.mem_map.mp ho
      rfl
  | batchExists cacheType keys =>
      apply (trace_reads _).2
      intro o ho
      obtain ⟨key, _, rfl⟩ := List.mem_map.mp ho
      rfl
  | batchPut cacheType keys values =>
      show List.foldl _ m (List.map _ ((keys.map Key.ofBytes).zip values)) = List.foldl _ m _
      rw [List.zip_map_left, List.map_map, List.foldl_map]
      rfl

/-- A call within the limits asks with a request that fits its fields. -/
theorem Call.Within.valid {c : Call} {m : PlainMap} (h : c.Within m) : c.request.Valid := by
  obtain ⟨⟨_, _, _, hargs⟩, hcount, hbody, _, _⟩ := h
  cases c with
  | get _ _ => trivial
  | exists_ _ _ => trivial
  | clear _ => trivial
  | size _ => trivial
  | put cacheType key value =>
      show value.length < 2 ^ 32
      have hlen : (Call.put cacheType key value).request.body.length =
          (Key.ofBytes key).toBytes.length + value.length := List.length_append
      omega
  | batchGet cacheType keys =>
      show (keys.map Key.ofBytes).length ≤ kMaxBatchCount
      rw [List.length_map]
      exact hcount
  | batchExists cacheType keys =>
      show (keys.map Key.ofBytes).length ≤ kMaxBatchCount
      rw [List.length_map]
      exact hcount
  | batchPut cacheType keys values =>
      refine ⟨?_, ?_⟩
      · rw [List.length_zip, List.length_map]
        exact (Nat.min_le_left _ _).trans hcount
      · intro item hitem
        -- an item is no longer than the body, and the body fits its length field
        have hsub : (Request.putItem item).length ≤
            (((keys.map Key.ofBytes).zip values).flatMap Request.putItem).length := by
          obtain ⟨before, later, hsplit⟩ := List.append_of_mem hitem
          rw [hsplit, List.flatMap_append, List.flatMap_cons, List.length_append,
            List.length_append]
          omega
        have hlen := Request.length_putItem item
        have htotal : (Call.batchPut cacheType keys values).request.body.length =
            4 + (((keys.map Key.ofBytes).zip values).flatMap Request.putItem).length := by
          show (LittleEndian.bytes 4 _ ++ _).length = _
          rw [List.length_append, LittleEndian.length_bytes]
        omega

/-- In a batch every value comes with a key, so a bound on the values of the items is one
on all values. -/
theorem values_fit {keys values : List Bytes} (hlen : keys.length = values.length)
    (h : ∀ item ∈ (keys.map Key.ofBytes).zip values, item.2.length < 2 ^ 32) :
    ∀ value ∈ values, value.length < 2 ^ 32 := by
  intro value hvalue
  have hsnd : ((keys.map Key.ofBytes).zip values).map Prod.snd = values := by
    apply List.map_snd_zip
    rw [List.length_map, hlen]
  rw [← hsnd] at hvalue
  obtain ⟨item, hitem, rfl⟩ := List.mem_map.mp hvalue
  exact h item hitem

/-- What a batch of keys is answered with, from the plain map. -/
theorem batchGet_answer (cacheType : ℤ) (keys : List Bytes) (m : PlainMap) :
    (Call.batchGet cacheType keys).request.answer ((Call.batchGet cacheType keys).acts m) =
      (.ok, LittleEndian.bytes 4
          (keys.map fun key => m (typeByte cacheType, Key.ofBytes key)).length ++
        (keys.map fun key => m (typeByte cacheType, Key.ofBytes key)).flatMap valueItem) := by
  have hacts : (Call.batchGet cacheType keys).acts m = keys.map fun key =>
      ⟨.get (typeByte cacheType) (Key.ofBytes key), m (typeByte cacheType, Key.ofBytes key)⟩ := by
    apply (trace_reads _).1.trans
    · show List.map _ (List.map _ (List.map _ keys)) = _
      rw [List.map_map, List.map_map]
      rfl
    · intro o ho
      obtain ⟨key, _, rfl⟩ := List.mem_map.mp ho
      rfl
  rw [hacts]
  show (Status.ok, LittleEndian.bytes 4 (keys.map Key.ofBytes).length ++ _) = _
  rw [List.length_map, List.length_map, List.flatMap_map, List.flatMap_map]
  rfl

theorem batchExists_answer (cacheType : ℤ) (keys : List Bytes) (m : PlainMap) :
    (Call.batchExists cacheType keys).request.answer ((Call.batchExists cacheType keys).acts m) =
      (.ok, LittleEndian.bytes 4
          (keys.map fun key => (m (typeByte cacheType, Key.ofBytes key)).isSome).length ++
        (keys.map fun key => (m (typeByte cacheType, Key.ofBytes key)).isSome).map flagByte) := by
  have hacts : (Call.batchExists cacheType keys).acts m = keys.map fun key =>
      ⟨.exists_ (typeByte cacheType) (Key.ofBytes key),
        (m (typeByte cacheType, Key.ofBytes key)).isSome⟩ := by
    apply (trace_reads _).1.trans
    · show List.map _ (List.map _ (List.map _ keys)) = _
      rw [List.map_map, List.map_map]
      rfl
    · intro o ho
      obtain ⟨key, _, rfl⟩ := List.mem_map.mp ho
      rfl
  rw [hacts]
  show (Status.ok, LittleEndian.bytes 4 (keys.map Key.ofBytes).length ++ _) = _
  rw [List.length_map, List.length_map, List.map_map, List.map_map]
  rfl

/-! ## The client's side of a call -/

/-- A function of the result changes nothing on the wire. -/
theorem meets_clientMap {said : Bytes} {Post : Except ClientError β → ClientTalk → Prop}
    {x : Client α} {f : α → β} {t : ClientTalk}
    (h : Meets said (fun _ => True) (fun r => Post (f <$> r)) x.run t) :
    Meets said (fun _ => True) Post (f <$> x).run t := by
  apply Meets.bind
  apply h.mono
  · intro a _
    exact quiet_client _
  · intro r t h
    cases r with
    | ok a => exact h
    | error e => exact h

/-- A call that returns `outcome` has written its request and read its response. -/
def Returns (r : Request) (outcome : Outcome) (a : Except ClientError Outcome) (t : ClientTalk) :
    Prop := a = .ok outcome ∧ t.input = [] ∧ t.out = r.encode

/-- The client's side of a request that succeeds, up to what is made of the
payload. -/
theorem meets_call {self : KVStoreClient} (hself : self.connected = true) {r : Request}
    {command : Command} {cacheType : ℤ} (h0 : 0 ≤ cacheType) (h1 : cacheType ≤ 0xFF)
    {keyLen valLen : ℕ} (hkey : keyLen < 2 ^ 16) (hval : valLen < 2 ^ 32) {body : Bytes}
    (hencode : r.encode = Request.header command (typeByte cacheType) keyLen valLen ++ body)
    {answer : Status × Bytes} (hanswer : answer.2.length < 2 ^ 32)
    {rest : UInt8 × Bytes → Client α} {Post : Except ClientError α → ClientTalk → Prop}
    (hP : Meets r.encode (fun _ => True) Post (rest (answer.1.code, answer.2)).run
      ⟨[], [], [], r.encode⟩) :
    Meets r.encode (fun _ => True) Post
      (self.requestRaw command cacheType keyLen valLen body >>= rest).run
      ⟨response answer, [], [], []⟩ := by
  apply meets_clientBind
  rw [hencode] at hP ⊢
  exact meets_requestRaw hself h0 h1 hkey hval hanswer hP

/-- The key of a request, as the bytes that the caller has given. -/
theorem encode_key (head : Bytes) {key : Bytes} (hlen : key.length = 32) :
    head ++ (Key.ofBytes key).toBytes ++ [] = head ++ (key ++ []) := by
  rw [Key.toBytes_ofBytes hlen, List.append_nil, List.append_nil]

/-- **A call of the client**: it writes its request, reads the answer to it and returns what the
plain map returns. -/
theorem client_meets {self : KVStoreClient} (hself : self.connected = true) {c : Call}
    {m : PlainMap} (h : c.Within m) :
    Meets c.request.encode (fun _ => True) (Returns c.request (m.call c).1) (c.program self).run
      ⟨response (c.request.answer (c.acts m)), [], [], []⟩ := by
  -- the checks of the arguments pass, as the call is accepted
  have hvalid := h.valid
  obtain ⟨⟨h0, h1, hkeys, hargs⟩, hcount, _, hanswer, hsize⟩ := h
  have htype := validateType_ok h0 h1
  cases c with
  | put cacheType key value =>
      -- one key: the request is its header, the key and, for a put, the value
      have hlen : key.length = 32 := hkeys key List.mem_cons_self
      apply meets_clientMap
      unfold KVStoreClient.put KVStoreClient.request
      rw [show validateType cacheType = .ok () from htype, lift_ok_bind, validateKey_ok hlen,
        lift_ok_bind, hlen]
      refine meets_call hself h0 h1 (by decide) hvalid ?_ hanswer ?_
      · show _ ++ ((Key.ofBytes key).toBytes ++ value) ++ [] = _
        rw [Key.toBytes_ofBytes hlen, List.append_nil]
        rfl
      · exact ⟨rfl, rfl, rfl⟩
  | get cacheType key =>
      have hlen : key.length = 32 := hkeys key List.mem_cons_self
      have hencode : (Call.get cacheType key).request.encode =
          -- nothing follows the key of a read, so its body ends there
          Request.header .get (typeByte cacheType) 32 0 ++ (key ++ []) := encode_key _ hlen
      apply meets_clientMap
      unfold KVStoreClient.get KVStoreClient.request
      rw [show validateType cacheType = .ok () from htype, lift_ok_bind, validateKey_ok hlen,
        lift_ok_bind, hlen]
      refine meets_call hself h0 h1 (by decide) (by decide) hencode hanswer ?_
      have hacts : (Call.get cacheType key).acts m = [⟨.get (typeByte cacheType) (Key.ofBytes key),
        m (typeByte cacheType, Key.ofBytes key)⟩] := rfl
      have houtcome : (m.call (.get cacheType key)).1 =
          .get (m (typeByte cacheType, Key.ofBytes key)) := rfl
      rw [hacts, houtcome]
      -- the status tells an absent value from an empty one
      cases m (typeByte cacheType, Key.ofBytes key) with
      | none => exact ⟨rfl, rfl, rfl⟩
      | some value => exact ⟨rfl, rfl, rfl⟩
  | exists_ cacheType key =>
      have hlen : key.length = 32 := hkeys key List.mem_cons_self
      have hencode : (Call.exists_ cacheType key).request.encode =
          Request.header .exists_ (typeByte cacheType) 32 0 ++ (key ++ []) := encode_key _ hlen
      apply meets_clientMap
      unfold KVStoreClient.exists_ KVStoreClient.request
      rw [show validateType cacheType = .ok () from htype, lift_ok_bind, validateKey_ok hlen,
        lift_ok_bind, hlen]
      refine meets_call hself h0 h1 (by decide) (by decide) hencode hanswer ?_
      have hacts : (Call.exists_ cacheType key).acts m =
        [⟨.exists_ (typeByte cacheType) (Key.ofBytes key),
          (m (typeByte cacheType, Key.ofBytes key)).isSome⟩] := rfl
      have houtcome : (m.call (.exists_ cacheType key)).1 =
          .exists_ (m (typeByte cacheType, Key.ofBytes key)).isSome := rfl
      rw [hacts, houtcome]
      cases (m (typeByte cacheType, Key.ofBytes key)).isSome with
      | false => exact ⟨rfl, rfl, rfl⟩
      | true => exact ⟨rfl, rfl, rfl⟩
  | batchPut cacheType keys values =>
      -- a batch is packed before anything is sent, so all of it has to fit
      obtain ⟨hitems, hvalues⟩ := hvalid
      have hlt : keys.length < 2 ^ 32 := lt_of_le_of_lt hcount (by decide)
      have hpacked := packItems_ok hlt hargs hkeys (values_fit hargs hvalues)
      apply meets_clientMap
      unfold KVStoreClient.batchPut
      rw [show validateType cacheType = .ok () from htype, lift_ok_bind,
        if_neg (not_not_intro hargs), hpacked, lift_ok_bind]
      refine meets_call hself h0 h1 (by decide) (by decide) ?_ hanswer ?_
      · exact List.append_nil _
      · exact ⟨rfl, rfl, rfl⟩
  | batchGet cacheType keys =>
      have hlt : keys.length < 2 ^ 32 := lt_of_le_of_lt hcount (by decide)
      -- the answer is a count and the items, which the client's parser takes apart again
      rw [batchGet_answer] at hanswer ⊢
      apply meets_clientMap
      unfold KVStoreClient.batchGet
      rw [show validateType cacheType = .ok () from htype, lift_ok_bind, packKeys_ok hlt hkeys,
        lift_ok_bind]
      refine meets_call hself h0 h1 (by decide) (by decide) ?_ hanswer ?_
      · exact List.append_nil _
      · dsimp only
        rw [parseBatchGetPayload_ok (by rw [List.length_map]; exact hlt)
          (values_fit_payload hanswer)]
        exact ⟨rfl, rfl, rfl⟩
  | batchExists cacheType keys =>
      have hlt : keys.length < 2 ^ 32 := lt_of_le_of_lt hcount (by decide)
      rw [batchExists_answer] at hanswer ⊢
      apply meets_clientMap
      unfold KVStoreClient.batchExists
      rw [show validateType cacheType = .ok () from htype, lift_ok_bind, packKeys_ok hlt hkeys,
        lift_ok_bind]
      refine meets_call hself h0 h1 (by decide) (by decide) ?_ hanswer ?_
      · exact List.append_nil _
      · dsimp only
        rw [parseBatchExistsPayload_ok (by rw [List.length_map]; exact hlt)]
        exact ⟨rfl, rfl, rfl⟩
  | clear cacheType =>
      apply meets_clientMap
      unfold KVStoreClient.clear
      rw [show validateType cacheType = .ok () from htype, lift_ok_bind]
      refine meets_call hself h0 h1 (by decide) (by decide) ?_ hanswer ?_
      · rfl
      · exact ⟨rfl, rfl, rfl⟩
  -- the only call whose answer has to be of one fixed length
  | size cacheType =>
      have hlen : (LittleEndian.bytes 8 (m.size (typeByte cacheType))).length = 8 :=
        LittleEndian.length_bytes 8 _
      have hvalue : LittleEndian.value (LittleEndian.bytes 8 (m.size (typeByte cacheType))) =
          m.size (typeByte cacheType) := LittleEndian.value_bytes_of_lt hsize
      apply meets_clientMap
      unfold KVStoreClient.size
      rw [show validateType cacheType = .ok () from htype, lift_ok_bind]
      refine meets_call hself h0 h1 (by decide) (by decide) ?_ hanswer ?_
      · rfl
      · have hbody : ((Call.size cacheType).request.answer ((Call.size cacheType).acts m)).2 =
            LittleEndian.bytes 8 (m.size (typeByte cacheType)) := rfl
        have hread : unpackU64 (LittleEndian.bytes 8 (m.size (typeByte cacheType))) =
            .ok (m.size (typeByte cacheType)) := by
          unfold unpackU64
          rw [if_pos hlen, hvalue]
          rfl
        apply meets_clientBind
        rw [hbody, if_neg (not_not_intro hlen), hread]
        exact ⟨rfl, rfl, rfl⟩

end AsuAscend.MicroKV
