/-
What the server does with one request.

`Request` is what a message asks for, `encode` its bytes, `items` the accesses it
asks for and `answer` the response that the results of these make.
`serves_request`: one turn of `HandleClient` reads exactly the bytes of a request,
in whatever pieces they arrive, makes exactly its accesses in order and writes
exactly its response.

## The functions from the bottom up

Each of the reading functions meets its message, and the handlers are put together from these by
`Meets.bind`. Messages do not end where the server stops reading: a rejected request has a
`trailing` part that stays in the stream, and `message` is what is read of it.

`answer` and `reply` are functions of the results of the accesses, so that it makes no difference
here what the store does, or who else uses it. `keeps` says whether the connection goes on.
-/
import AsuAscend.MicroKV.Server

set_option autoImplicit false

open StreamPrograms

namespace AsuAscend.MicroKV

/-! ## Requests and responses -/

inductive Request
  | put (type : UInt8) (key : Key) (value : Bytes)
  | get (type : UInt8) (key : Key)
  | exists_ (type : UInt8) (key : Key)
  | batchPut (type : UInt8) (items : List (Key × Bytes))
  | batchGet (type : UInt8) (keys : List Key)
  | batchExists (type : UInt8) (keys : List Key)
  | clear (type : UInt8)
  | size (type : UInt8)
  /-- a header that is rejected, with all that follows it -/
  | malformed (head rest : Bytes)
  /-- a batch that announces too many items, with all that follows the count -/
  | oversized (command : Command) (type : UInt8) (count : ℕ) (rest : Bytes)

/-- The headers that `HandleRequest` answers with `BadRequest` before it reads on. -/
def RejectedHeader (head : Bytes) : Prop :=
  match Command.ofByte? (head.getD 0 0) with
  | none => True
  | some .put => (loadLe16 (head.drop 4)).toNat ≠ kKeyLength
  | some .clear | some .size => loadLe16 (head.drop 4) ≠ 0 ∨ loadLe32 (head.drop 6) ≠ 0
  | some _ => (loadLe16 (head.drop 4)).toNat ≠ kKeyLength ∨ loadLe32 (head.drop 6) ≠ 0

namespace Request

/-- Every length fits its field; a batch is not over the limit, unless it is
`oversized`. -/
def Valid : Request → Prop
  | put _ _ value => value.length < 2 ^ 32
  | batchPut _ items => items.length ≤ kMaxBatchCount ∧ ∀ item ∈ items, item.2.length < 2 ^ 32
  | batchGet _ keys => keys.length ≤ kMaxBatchCount
  | batchExists _ keys => keys.length ≤ kMaxBatchCount
  | malformed head _ => head.length = kRequestHeaderLength ∧ RejectedHeader head
  | oversized command _ count _ =>
      command ∈ [Command.batchPut, .batchGet, .batchExists] ∧
        kMaxBatchCount < count ∧ count < 2 ^ 32
  | _ => True

/-- Whether the server answers the request with `BadRequest` and closes. -/
def rejected : Request → Bool
  | malformed .. => true
  | oversized .. => true
  | _ => false

def header (command : Command) (type : UInt8) (keyLen valLen : ℕ) : Bytes :=
  command.code :: type :: (LittleEndian.bytes 2 0 ++ LittleEndian.bytes 2 keyLen ++
    LittleEndian.bytes 4 valLen)

def putItem (item : Key × Bytes) : Bytes :=
  item.1.toBytes ++ (LittleEndian.bytes 4 item.2.length ++ item.2)

/-- An item of a batch of puts is its key, its length and its value. -/
theorem length_putItem (item : Key × Bytes) :
    (putItem item).length = kKeyLength + (4 + item.2.length) := by
  rw [putItem, List.length_append, List.length_append, Key.length_toBytes, LittleEndian.length_bytes]

def head : Request → Bytes
  | put type _ value => header .put type 32 value.length
  | get type _ => header .get type 32 0
  | exists_ type _ => header .exists_ type 32 0
  | batchPut type _ => header .batchPut type 32 0
  | batchGet type _ => header .batchGet type 32 0
  | batchExists type _ => header .batchExists type 32 0
  | clear type => header .clear type 0 0
  | size type => header .size type 0 0
  | malformed head _ => head
  | oversized command type _ _ => header command type 32 0

def body : Request → Bytes
  | put _ key value => key.toBytes ++ value
  | get _ key => key.toBytes
  | exists_ _ key => key.toBytes
  | batchPut _ items => LittleEndian.bytes 4 items.length ++ items.flatMap putItem
  | batchGet _ keys => LittleEndian.bytes 4 keys.length ++ keys.flatMap Key.toBytes
  | batchExists _ keys => LittleEndian.bytes 4 keys.length ++ keys.flatMap Key.toBytes
  | clear _ => []
  | size _ => []
  | malformed _ _ => []
  | oversized _ _ count _ => LittleEndian.bytes 4 count

/-- What follows a rejected request. -/
def trailing : Request → Bytes
  | malformed _ rest => rest
  | oversized _ _ _ rest => rest
  | _ => []

/-- The bytes of the request that the server reads. -/
def message (r : Request) : Bytes := r.head ++ r.body

/-- The bytes that the client sends. -/
def encode (r : Request) : Bytes := r.message ++ r.trailing

/-- The accesses to the store that the request asks for, in order. -/
def items : Request → List StoreOp
  | put type key value => [.put type key value]
  | get type key => [.get type key]
  | exists_ type key => [.exists_ type key]
  | batchPut type items => items.map fun item => .put type item.1 item.2
  | batchGet type keys => keys.map fun key => .get type key
  | batchExists type keys => keys.map fun key => .exists_ type key
  | clear type => [.clear type]
  | size type => [.size type]
  | malformed .. => []
  | oversized .. => []

end Request

/-- The value that a `Get` found. -/
def Act.value : Act → Option Bytes
  | ⟨.get _ _, value⟩ => value
  | _ => none

/-- The answer of an `Exists`. -/
def Act.found : Act → Bool
  | ⟨.exists_ _ _, found⟩ => found
  | _ => false

/-- The answer of a `Size`. -/
def Act.count : Act → ℕ
  | ⟨.size _, count⟩ => count
  | _ => 0

/-- The item of a `BatchGet` payload for one key. -/
def valueItem : Option Bytes → Bytes
  | some value => 1 :: (LittleEndian.bytes 4 value.length ++ value)
  | none => 0 :: LittleEndian.bytes 4 0

/-- The status and payload that a request is answered with, given the results of
its accesses. -/
def Request.answer : Request → List Act → Status × Bytes
  | put .., _ => (.ok, [])
  | get .., did =>
      match did.head?.bind Act.value with
      | some value => (.ok, value)
      | none => (.notFound, [])
  | exists_ .., did => (.ok, did.map fun a => flagByte a.found)
  | batchPut .., _ => (.ok, [])
  | batchGet _ keys, did =>
      (.ok, LittleEndian.bytes 4 keys.length ++ did.flatMap fun a => valueItem a.value)
  | batchExists _ keys, did =>
      (.ok, LittleEndian.bytes 4 keys.length ++ did.map fun a => flagByte a.found)
  | clear .., _ => (.ok, [])
  | size .., did => (.ok, LittleEndian.bytes 8 ((did.map Act.count).headD 0))
  | malformed .., _ => (.badRequest, [])
  | oversized .., _ => (.badRequest, [])

/-- The bytes of a response. -/
def response (answer : Status × Bytes) : Bytes :=
  answer.1.code :: (LittleEndian.bytes 4 answer.2.length ++ answer.2)

/-- Whether the payload of the response is one that the header can announce. -/
def Request.fits (r : Request) (did : List Act) : Bool := (r.answer did).2.length < 2 ^ 32

/-- Whether the connection stays open after the request. -/
def Request.keeps (r : Request) (did : List Act) : Bool := r.fits did && !r.rejected

/-- What the server writes: the response, or nothing where its payload is too long. -/
def Request.reply (r : Request) (did : List Act) : Bytes :=
  if r.fits did then response (r.answer did) else []

/-! ## The server's reads and writes -/

section Rules

variable {Broken : Option Bytes → Prop}

/-- So many bytes are read, in however many pieces they come. -/
theorem meets_readExact {Post : Option Bytes → Talk StoreOp StoreOp.Res → Prop} {said : Bytes}
    (n : ℕ) {t : Talk StoreOp StoreOp.Res} (hlen : n ≤ t.input.length)
    (hsaid : n = 0 ∨ t.out = said) (hB : Broken none)
    (hP : Post (some (t.input.take n)) { t with input := t.input.drop n }) :
    Meets said Broken Post (readExact n) t := by
  apply Meets.bind
  apply meets_recvLoop n [] hlen hsaid
  · intro e
    exact hB
  · exact hP

theorem meets_readKey {Broken : Option Key → Prop}
    {Post : Option Key → Talk StoreOp StoreOp.Res → Prop} {said : Bytes} (key : Key) {rest : Bytes}
    {t : Talk StoreOp StoreOp.Res} (hinput : t.input = key.toBytes ++ rest) (hsaid : t.out = said)
    (hB : Broken none) (hP : Post (some key) { t with input := rest }) :
    Meets said Broken Post readKey t := by
  have hlen : key.toBytes.length = kKeyLength := key.length_toBytes
  apply Meets.bind
  apply meets_readExact kKeyLength _ (Or.inr hsaid) hB
  · rw [hinput, List.take_left' hlen, List.drop_left' hlen]
    show Post (some (Key.ofBytes key.toBytes)) _
    rw [Key.ofBytes_toBytes]
    exact hP
  · rw [hinput, List.length_append, hlen]
    omega

theorem meets_readU32 {Broken : Option UInt32 → Prop}
    {Post : Option UInt32 → Talk StoreOp StoreOp.Res → Prop} {said : Bytes} {n : ℕ}
    (hn : n < 2 ^ 32) {rest : Bytes} {t : Talk StoreOp StoreOp.Res}
    (hinput : t.input = LittleEndian.bytes 4 n ++ rest) (hsaid : t.out = said) (hB : Broken none)
    (hP : Post (some (UInt32.ofNat n)) { t with input := rest }) :
    Meets said Broken Post readU32 t := by
  have hlen : (LittleEndian.bytes 4 n).length = 4 := LittleEndian.length_bytes 4 n
  apply Meets.bind
  apply meets_readExact 4 _ (Or.inr hsaid) hB
  · rw [hinput, List.take_left' hlen, List.drop_left' hlen]
    show Post (some (loadLe32 (LittleEndian.bytes 4 n))) _
    have hload : loadLe32 (LittleEndian.bytes 4 n) = UInt32.ofNat n := by
      apply UInt32.toNat_inj.mp
      rw [UInt32.toNat_ofNat_of_lt' hn]
      have h := loadLe32_bytes hn []
      rwa [List.append_nil] at h
    rw [hload]
    exact hP
  · rw [hinput, List.length_append, hlen]
    omega

theorem meets_readBytes {Post : Option Bytes → Talk StoreOp StoreOp.Res → Prop} {said : Bytes}
    {value rest : Bytes} (hlt : value.length < 2 ^ 32) {t : Talk StoreOp StoreOp.Res}
    (hinput : t.input = value ++ rest) (hsaid : t.out = said) (hB : Broken none)
    (hP : Post (some value) { t with input := rest }) :
    Meets said Broken Post (readBytes (UInt32.ofNat value.length)) t := by
  have hlen : (UInt32.ofNat value.length).toNat = value.length := UInt32.toNat_ofNat_of_lt' hlt
  unfold readBytes
  split_ifs with h0
  -- an empty value is read without a call
  · have hnil : value = [] := by
      apply List.eq_nil_of_length_eq_zero
      rw [← hlen, h0]
      rfl
    subst hnil
    rw [List.nil_append] at hinput
    subst hinput
    exact hP
  · rw [hlen]
    apply meets_readExact value.length _ (Or.inr hsaid) hB
    · rw [hinput, List.take_left, List.drop_left]
      exact hP
    · rw [hinput, List.length_append]
      omega

end Rules

/-- A response is written as its header and its payload. -/
theorem responseHeader_append (status : Status) (payload : Bytes) :
    responseHeader status payload ++ payload = response (status, payload) := by
  unfold responseHeader response
  rw [storeLe32_ofNat]
  rfl

/-- Sending a response makes no access to the store. -/
theorem quiet_sendResponse {Q : Bool → Prop} (hQ : ∀ b, Q b) (status : Status) (payload : Bytes) :
    Quiet Q (sendResponse status payload) := by
  unfold sendResponse
  by_cases h : payload.length > 4294967295
  · rw [if_pos h]
    exact hQ _
  · rw [if_neg h]
    apply quiet_bind
    apply quiet_sendLoop
    intro b
    split_ifs
    · exact hQ _
    · exact quiet_sendLoop hQ _
    · exact hQ _

theorem quiet_rejectRequest {Q : Bool → Prop} (hQ : Q false) : Quiet Q rejectRequest := by
  apply quiet_bind
  exact quiet_sendResponse (fun _ => hQ) _ _

/-- A response leaves whole, or not at all where its length does not fit the header. -/
theorem meets_sendResponse {Broken : Bool → Prop}
    {Post : Bool → Talk StoreOp StoreOp.Res → Prop} {said : Bytes} (status : Status)
    (payload : Bytes) {t : Talk StoreOp StoreOp.Res} (hB : Broken false)
    (hlong : 2 ^ 32 ≤ payload.length → Post false t)
    (hP : payload.length < 2 ^ 32 →
      Post true { t with out := t.out ++ response (status, payload) }) :
    Meets said Broken Post (sendResponse status payload) t := by
  unfold sendResponse
  by_cases h : payload.length > 4294967295
  · rw [if_pos h]
    exact hlong h
  · rw [if_neg h]
    have hsent := hP (by omega)
    rw [← responseHeader_append] at hsent
    apply Meets.bind
    apply meets_sendLoop
    · exact hB
    · rw [if_pos rfl]
      -- an empty payload is not sent on its own
      split_ifs with hempty
      · rw [List.isEmpty_iff.mp hempty, List.append_nil] at hsent
        rw [List.isEmpty_iff.mp hempty]
        exact hsent
      · apply meets_sendLoop _ hB
        dsimp only
        rw [List.append_assoc]
        exact hsent

/-! ## One request -/

section Header

variable (command : Command) (type : UInt8) {keyLen valLen : ℕ}

/-- The key length is read back from a header. -/
theorem header_keyLen (h : keyLen < 2 ^ 16) :
    loadLe16 ((Request.header command type keyLen valLen).drop 4) = UInt16.ofNat keyLen := by
  apply UInt16.toNat_inj.mp
  rw [UInt16.toNat_ofNat_of_lt' h]
  exact loadLe16_bytes h _

theorem header_valLen (h : valLen < 2 ^ 32) :
    loadLe32 ((Request.header command type keyLen valLen).drop 6) = UInt32.ofNat valLen := by
  apply UInt32.toNat_inj.mp
  rw [UInt32.toNat_ofNat_of_lt' h]
  have hload := loadLe32_bytes h []
  rwa [List.append_nil] at hload

/-- The header of a request with one key size. -/
theorem header_keyLength :
    (loadLe16 ((Request.header command type 32 valLen).drop 4)).toNat = kKeyLength := by
  rw [header_keyLen command type (by decide)]
  rfl

theorem header_noValue : loadLe32 ((Request.header command type keyLen 0).drop 6) = 0 := by
  rw [header_valLen command type (by decide)]
  rfl

end Header

/-- What one request leaves: its bytes are read, its accesses made and its
response written. `false` closes the connection. -/
def Handled (r : Request) (b : Bool) (t : Talk StoreOp StoreOp.Res) : Prop :=
  t.input = [] ∧ t.todo = [] ∧ t.did.map Sigma.fst = r.items ∧
    t.out = r.reply t.did ∧ b = r.keeps t.did

/-- The response to a request whose accesses have been made. -/
theorem meets_answer {r : Request} (hr : r.rejected = false) {status : Status} {payload : Bytes}
    {did : List Act} (hitems : did.map Sigma.fst = r.items)
    (hans : r.answer did = (status, payload)) :
    Meets [] (· = false) (Handled r) (sendResponse status payload) ⟨[], [], did, []⟩ := by
  refine meets_sendResponse _ _ ?_ ?_ ?_
  · rfl
  · intro hlong
    have hfits : r.fits did = false := by
      rw [Request.fits, hans]
      exact decide_eq_false (Nat.not_lt.mpr hlong)
    refine ⟨rfl, rfl, hitems, ?_, ?_⟩
    · rw [Request.reply, hfits]
      rfl
    · rw [Request.keeps, hfits]
      rfl
  · intro hlt
    have hfits : r.fits did = true := by
      rw [Request.fits, hans]
      exact decide_eq_true hlt
    refine ⟨rfl, rfl, hitems, ?_, ?_⟩
    · rw [Request.reply, hfits, if_pos rfl, hans]
      rfl
    · rw [Request.keeps, hfits, hr]
      rfl

/-- A rejected request is answered `BadRequest`, and the connection closed. -/
theorem meets_rejectRequest {r : Request} (hr : r.rejected = true) (hitems : r.items = [])
    (hans : r.answer [] = (.badRequest, [])) :
    Meets [] (· = false) (Handled r) rejectRequest ⟨[], [], [], []⟩ := by
  have hfits : r.fits [] = true := by
    rw [Request.fits, hans]
    rfl
  have hhandled : Handled r false ⟨[], [], [], response (.badRequest, [])⟩ := by
    refine ⟨rfl, rfl, hitems.symm, ?_, ?_⟩
    · rw [Request.reply, hfits, if_pos rfl, hans]
    · rw [Request.keeps, hr, Bool.not_true, Bool.and_false]
  apply Meets.bind
  refine meets_sendResponse _ _ ?_ ?_ ?_
  · rfl
  · intro hlong
    exact absurd hlong (by decide)
  · intro _
    exact hhandled

/-- The items of a `BatchPut` are read and stored one by one. -/
theorem meets_batchPutItems (type : UInt8) (items : List (Key × Bytes))
    (hlt : ∀ item ∈ items, item.2.length < 2 ^ 32) {Broken : Bool → Prop}
    {Post : Bool → Talk StoreOp StoreOp.Res → Prop} (hB : Broken false) {did : List Act}
    (hP : ∀ did' : List Act, did'.map Sigma.fst = (Request.batchPut type items).items →
      Post true ⟨[], [], did ++ did', []⟩) :
    Meets [] Broken Post (batchPutItems type items.length)
      ⟨items.flatMap Request.putItem, (Request.batchPut type items).items, did, []⟩ := by
  induction items generalizing did with
  | nil =>
      have h := hP [] rfl
      rw [List.append_nil] at h
      exact h
  | cons item items ih =>
      obtain ⟨key, value⟩ := item
      have hvalue : value.length < 2 ^ 32 := hlt (key, value) List.mem_cons_self
      have hinput : (⟨key, value⟩ :: items).flatMap Request.putItem = key.toBytes ++
          (LittleEndian.bytes 4 value.length ++ (value ++ items.flatMap Request.putItem)) := by
        simp [Request.putItem]
      apply Meets.bind
      refine meets_readKey key hinput rfl hB ?_
      apply Meets.bind
      refine meets_readU32 hvalue rfl rfl hB ?_
      apply Meets.bind
      refine meets_readBytes hvalue rfl rfl hB ?_
      apply Meets.bind
      -- the item is stored before the next one is read
      refine meets_perform rfl rfl ?_
      intro r
      apply ih fun item hitem => hlt item (List.mem_cons_of_mem _ hitem)
      intro did' hdid'
      rw [List.append_assoc]
      apply hP
      rw [List.singleton_append, List.map_cons, hdid']
      rfl

/-- A value of a batch is appended as its item. -/
theorem appendValue_eq (payload : Bytes) (value : Option Bytes) :
    appendValue payload value = payload ++ valueItem value := by
  cases value with
  | none => simp [appendValue, appendLe32, valueItem, flagByte, storeLe32_eq]
  | some value => simp [appendValue, appendLe32, valueItem, flagByte, storeLe32_ofNat]

/-- A loop that reads keys one by one and adds to its payload what each access has given. -/
structure KeyLoop (items : ℕ → Bytes → Server (Option Bytes)) (op : Key → StoreOp)
    (piece : Act → Bytes) : Prop where
  zero : ∀ payload, items 0 payload = pure (some payload)
  succ : ∀ n payload, items (n + 1) payload = do
    let some key ← readKey | return none
    let r ← access (op key)
    items n (payload ++ piece ⟨op key, r⟩)

/-- The loop of `BatchGet` makes one access for each key, and appends its item. -/
theorem batchGetItems_keyLoop (type : UInt8) :
    KeyLoop (batchGetItems type) (.get type) fun a => valueItem a.value where
  zero _ := rfl
  succ n payload := by
    rw [batchGetItems]
    simp only [appendValue_eq]
    rfl

/-- The loop of `BatchExists` appends a flag. -/
theorem batchExistsItems_keyLoop (type : UInt8) :
    KeyLoop (batchExistsItems type) (.exists_ type) fun a => [flagByte a.found] where
  zero _ := rfl
  succ _ _ := rfl

/-- The keys of a batch are read and looked up one by one. -/
theorem meets_keyLoop {items : ℕ → Bytes → Server (Option Bytes)} {op : Key → StoreOp}
    {piece : Act → Bytes} (hloop : KeyLoop items op piece) (keys : List Key)
    {Broken : Option Bytes → Prop} {Post : Option Bytes → Talk StoreOp StoreOp.Res → Prop}
    (hB : Broken none) {did : List Act} (payload : Bytes)
    (hP : ∀ did' : List Act, did'.map Sigma.fst = keys.map op →
      Post (some (payload ++ did'.flatMap piece)) ⟨[], [], did ++ did', []⟩) :
    Meets [] Broken Post (items keys.length payload)
      ⟨keys.flatMap Key.toBytes, keys.map op, did, []⟩ := by
  induction keys generalizing did payload with
  | nil =>
      have h := hP [] rfl
      rw [List.flatMap_nil, List.append_nil, List.append_nil] at h
      rw [List.length_nil, hloop.zero]
      exact h
  | cons key keys ih =>
      rw [List.length_cons, hloop.succ]
      apply Meets.bind
      refine meets_readKey key List.flatMap_cons rfl hB ?_
      apply Meets.bind
      refine meets_perform rfl rfl ?_
      intro r
      apply ih
      intro did' hdid'
      have h := hP (⟨op key, r⟩ :: did') (by rw [List.map_cons, hdid']; rfl)
      rw [List.flatMap_cons, ← List.append_assoc] at h
      rw [List.append_assoc did, List.singleton_append]
      exact h

/-- A request that fits its fields has a header of ten bytes. -/
theorem Request.length_head {r : Request} (hr : r.Valid) :
    r.head.length = kRequestHeaderLength := by
  cases r with
  | malformed head rest => exact hr.1
  | _ => rfl

/-- The count of a batch within the limit is read back as it was sent. -/
theorem count_toNat {n : ℕ} (h : n ≤ kMaxBatchCount) :
    n < 2 ^ 32 ∧ (UInt32.ofNat n).toNat = n := by
  have hlt : n < 2 ^ 32 := lt_of_le_of_lt h (by decide)
  exact ⟨hlt, UInt32.toNat_ofNat_of_lt' hlt⟩

/-- A header that is rejected is rejected at once. -/
theorem handleRequest_rejected {head : Bytes} (h : RejectedHeader head) :
    handleRequest head = rejectRequest := by
  unfold RejectedHeader at h
  unfold handleRequest
  cases hc : Command.ofByte? (head.getD 0 0) with
  | none => rfl
  | some command =>
      rw [hc] at h
      cases command <;> exact if_pos h

/-- A count over the limit is rejected, whatever the command would do with it. -/
theorem meets_overlimit {r : Request} (hr : r.rejected = true) (hitems : r.items = [])
    (hans : r.answer [] = (.badRequest, [])) {count : ℕ} (hmax : kMaxBatchCount < count)
    (hlt : count < 2 ^ 32) (rest : UInt32 → Server Bool) :
    Meets [] (· = false) (Handled r)
      (do
        let some count ← readU32 | rejectRequest
        if count.toNat > kMaxBatchCount then rejectRequest else rest count)
      ⟨LittleEndian.bytes 4 count, [], [], []⟩ := by
  apply Meets.bind
  refine meets_readU32 hlt (List.append_nil _).symm rfl (quiet_rejectRequest rfl) ?_
  dsimp only
  rw [UInt32.toNat_ofNat_of_lt' hlt, if_pos hmax]
  exact meets_rejectRequest hr hitems hans

/-- A count within the limit is read, and the batch goes on with its items. -/
theorem meets_count {Post : Bool → Talk StoreOp StoreOp.Res → Prop} {n : ℕ} {later : Bytes}
    {todo : List StoreOp} (hn : n ≤ kMaxBatchCount) {rest : UInt32 → Server Bool}
    (hrest : Meets [] (· = false) Post (rest (UInt32.ofNat n)) ⟨later, todo, [], []⟩) :
    Meets [] (· = false) Post
      (do
        let some count ← readU32 | rejectRequest
        if count.toNat > kMaxBatchCount then rejectRequest else rest count)
      ⟨LittleEndian.bytes 4 n ++ later, todo, [], []⟩ := by
  obtain ⟨hlt, hcount⟩ := count_toNat hn
  apply Meets.bind
  refine meets_readU32 hlt rfl rfl (quiet_rejectRequest rfl) ?_
  dsimp only
  rw [if_neg (by rw [hcount]; exact Nat.not_lt.mpr hn)]
  exact hrest

/-- **A request that fits its fields** is read to its end, and answered. -/
theorem meets_handleRequest {r : Request} (hr : r.Valid) :
    Meets [] (· = false) (Handled r) (handleRequest r.head) ⟨r.body, r.items, [], []⟩ := by
  -- one handler after the other: each rejects first, then reads, acts and answers
  cases r with
  | put type key value =>
      have hlen : value.length < 2 ^ 32 := hr
      -- the header passes: the key has its length
      show Meets _ _ _ (if _ then _ else _) _
      rw [Request.head, if_neg (not_not_intro (header_keyLength .put type)),
        header_valLen .put type hlen]
      apply Meets.bind
      refine meets_readKey key rfl rfl rfl ?_
      apply Meets.bind
      -- the value comes behind the key, and is as long as the header says
      refine meets_readBytes hlen (List.append_nil value).symm rfl rfl ?_
      apply Meets.bind
      refine meets_perform rfl rfl ?_
      intro done
      exact meets_answer rfl rfl rfl
  | get type key =>
      show Meets _ _ _ (if _ then _ else _) _
      rw [Request.head, if_neg (by rw [header_keyLength, header_noValue]; simp)]
      apply Meets.bind
      refine meets_readKey key (List.append_nil _).symm rfl rfl ?_
      apply Meets.bind
      refine meets_perform rfl rfl ?_
      intro value
      -- a value that is absent is answered with the status alone
      cases value with
      | none => exact meets_answer rfl rfl rfl
      | some value => exact meets_answer rfl rfl rfl
  | exists_ type key =>
      show Meets _ _ _ (if _ then _ else _) _
      rw [Request.head, if_neg (by rw [header_keyLength, header_noValue]; simp)]
      apply Meets.bind
      refine meets_readKey key (List.append_nil _).symm rfl rfl ?_
      apply Meets.bind
      refine meets_perform rfl rfl ?_
      intro found
      exact meets_answer rfl rfl rfl
  | batchPut type items =>
      show Meets _ _ _ (if _ then _ else _) _
      rw [Request.head, if_neg (by rw [header_keyLength, header_noValue]; simp)]
      -- the count is read and passes; then one access for each item, in order
      apply meets_count hr.1
      rw [(count_toNat hr.1).2]
      apply Meets.bind
      refine meets_batchPutItems type items hr.2 ?_ ?_
      · rfl
      · intro did hdid
        exact meets_answer rfl hdid rfl
  | batchGet type keys =>
      show Meets _ _ _ (if _ then _ else _) _
      rw [Request.head, if_neg (by rw [header_keyLength, header_noValue]; simp)]
      apply meets_count hr
      rw [(count_toNat hr).2]
      apply Meets.bind
      refine meets_keyLoop (batchGetItems_keyLoop type) keys ?_ _ ?_
      · rfl
      · intro did hdid
        apply meets_answer rfl hdid
        rw [appendLe32, storeLe32_ofNat]
        rfl
  | batchExists type keys =>
      show Meets _ _ _ (if _ then _ else _) _
      rw [Request.head, if_neg (by rw [header_keyLength, header_noValue]; simp)]
      apply meets_count hr
      rw [(count_toNat hr).2]
      apply Meets.bind
      refine meets_keyLoop (batchExistsItems_keyLoop type) keys ?_ _ ?_
      · rfl
      · intro did hdid
        apply meets_answer rfl hdid
        rw [appendLe32, storeLe32_ofNat, ← List.map_eq_flatMap]
        rfl
  -- a request without a key has to say so, and without a value too
  | clear type =>
      show Meets _ _ _ (if _ then _ else _) _
      rw [Request.head, if_neg (by rw [header_noValue, header_keyLen .clear type (by decide)]; decide)]
      apply Meets.bind
      refine meets_perform rfl rfl ?_
      intro done
      exact meets_answer rfl rfl rfl
  | size type =>
      show Meets _ _ _ (if _ then _ else _) _
      rw [Request.head, if_neg (by rw [header_noValue, header_keyLen .size type (by decide)]; decide)]
      apply Meets.bind
      refine meets_perform rfl rfl ?_
      intro size
      apply meets_answer rfl rfl
      rw [appendLe64, storeLe64_ofNat]
      rfl
  -- what a rejected request has behind its header is not read
  | malformed head rest =>
      rw [Request.head, handleRequest_rejected hr.2]
      exact meets_rejectRequest rfl rfl rfl
  | oversized command type count rest =>
      obtain ⟨hcommand, hmax, hlt⟩ := hr
      -- the three batches that have a count reject it in one way
      rw [List.mem_cons, List.mem_cons, List.mem_singleton] at hcommand
      rcases hcommand with rfl | rfl | rfl
      all_goals
        show Meets _ _ _ (if _ then _ else _) _
        rw [Request.head, if_neg (by rw [header_keyLength, header_noValue]; simp)]
        exact meets_overlimit rfl rfl rfl hmax hlt _

/-- What one turn of `HandleClient` leaves after one request. -/
def Served (r : Request) (a : Option Bool) (t : Talk StoreOp StoreOp.Res) : Prop :=
  t.input = [] ∧ t.todo = [] ∧ t.did.map Sigma.fst = r.items ∧
    t.out = r.reply t.did ∧ a = if r.keeps t.did then none else some false

/-- One turn of `HandleClient` serves one request, under any header that `HandleRequest` takes
for the request's own; a turn that a lost connection breaks is the last. -/
theorem serves_head {r : Request} (hr : r.Valid) {head : Bytes}
    (hlen : head.length = kRequestHeaderLength) (hsame : handleRequest head = handleRequest r.head) :
    Meets [] (· ≠ none) (Served r) handleClientTurn ⟨head ++ r.body, r.items, [], []⟩ := by
  apply Meets.bind
  refine meets_readExact kRequestHeaderLength ?_ (Or.inr rfl) ?_ ?_
  · rw [List.length_append, hlen]
    exact Nat.le_add_right _ _
  · exact Option.some_ne_none true
  · rw [List.take_left' hlen, List.drop_left' hlen]
    apply Meets.bind
    rw [hsame]
    apply (meets_handleRequest hr).mono
    · intro handled hbroken
      rw [hbroken]
      exact Option.some_ne_none false
    · rintro handled t ⟨hinput, htodo, hdid, hout, hkeeps⟩
      rw [hkeeps]
      cases hk : r.keeps t.did with
      | true => exact ⟨hinput, htodo, hdid, hout, by rw [hk]; rfl⟩
      | false => exact ⟨hinput, htodo, hdid, hout, by rw [hk]; rfl⟩

/-- So a turn of the server reads exactly one message. -/
theorem serves_request {r : Request} (hr : r.Valid) :
    Meets [] (· ≠ none) (Served r) handleClientTurn ⟨r.message, r.items, [], []⟩ :=
  serves_head hr (Request.length_head hr) rfl

end AsuAscend.MicroKV
