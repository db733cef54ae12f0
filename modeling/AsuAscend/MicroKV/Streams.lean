/-
A whole connection: any byte string, and what `HandleClient` makes of it.

A `Frame` is a request as it arrives. `Split` cuts a byte string into the requests that
are completely received and accepted and the `tail` after them: a rejected request
with all that follows it, or bytes in which no request is complete. `stream_served`:
however the string is cut into pieces, `HandleClient` ends, and what it leaves and
what it sends are those of the requests of the split and of the leading items of a
batch that the stream cuts.

## Every byte string

A stream need not be one that a client of this repository would send. Reserved bytes may be set,
since no branch looks at them; a header may be refused, at which the connection ends with what
follows it unread; and the end of the stream may lie anywhere, in a header, in a body, or inside
the value of a batch whose first items have been stored by then. `Split`, `TailPuts` and `TailReply`
are relations between byte strings and what they are made of; every string has such parts
(`exists_split`), and whichever are found, the run is the one they describe.
-/
import AsuAscend.MicroKV.Conversation
import AsuAscend.Lib.StreamRuns

set_option autoImplicit false

open StreamPrograms SequentialObject

namespace AsuAscend.MicroKV

/-! ## Requests as they arrive -/

/-- The header with the two bytes that the server ignores. -/
def withReserved (reserved : UInt8 × UInt8) (head : Bytes) : Bytes :=
  head.take 2 ++ (reserved.1 :: reserved.2 :: head.drop 4)

structure Frame where
  request : Request
  reserved : UInt8 × UInt8

def Frame.head (f : Frame) : Bytes := withReserved f.reserved f.request.head

/-- The bytes of the request that the server reads. -/
def Frame.bytes (f : Frame) : Bytes := f.head ++ f.request.body

/-- The request is one that the server can be sent, and answers without closing. -/
def Frame.Accepted (f : Frame) : Prop := f.request.Valid ∧ f.request.rejected = false

def Frame.Rejected (f : Frame) : Prop := f.request.Valid ∧ f.request.rejected = true

/-- The reserved bytes stand apart from all other fields. -/
theorem withReserved_eq (reserved : UInt8 × UInt8) {head : Bytes}
    (h : head.length = kRequestHeaderLength) :
    (withReserved reserved head).length = kRequestHeaderLength ∧
      (withReserved reserved head).getD 0 0 = head.getD 0 0 ∧
      (withReserved reserved head).getD 1 0 = head.getD 1 0 ∧
      (withReserved reserved head).drop 4 = head.drop 4 := by
  match head, h with
  | [_, _, _, _, _, _, _, _, _, _], _ => exact ⟨rfl, rfl, rfl, rfl⟩

theorem handleRequest_withReserved (reserved : UInt8 × UInt8) {head : Bytes}
    (h : head.length = kRequestHeaderLength) :
    handleRequest (withReserved reserved head) = handleRequest head := by
  obtain ⟨_, hcommand, htype, hrest⟩ := withReserved_eq reserved h
  have hval : (withReserved reserved head).drop 6 = head.drop 6 := by
    have hdrop := congrArg (List.drop 2) hrest
    rw [List.drop_drop, List.drop_drop] at hdrop
    exact hdrop
  unfold handleRequest
  rw [hcommand, htype, hrest, hval]

theorem Frame.length_head {f : Frame} (h : f.request.Valid) :
    f.head.length = kRequestHeaderLength := (withReserved_eq _ (Request.length_head h)).1

/-- One turn of `HandleClient` serves one frame. -/
theorem serves_frame {f : Frame} (h : f.request.Valid) :
    Meets [] (· ≠ none) (Served f.request) handleClientTurn ⟨f.bytes, f.request.items, [], []⟩ :=
  serves_head h (Frame.length_head h) (handleRequest_withReserved _ (Request.length_head h))

/-! ## What arrives -/

/-- The requests completely received before the first one that is rejected, and the tail:
no accepted request is complete at its beginning. -/
structure Split (input : Bytes) (frames : List Frame) (tail : Bytes) : Prop where
  input_eq : input = frames.flatMap Frame.bytes ++ tail
  accepted : ∀ f ∈ frames, f.Accepted
  ended : ∀ f : Frame, f.Accepted → ¬ f.bytes <+: tail

/-- The tail is a `BatchPut` of which exactly `items`, fewer than it announces, are completely
received. -/
def CutBatch (tail : Bytes) (type : UInt8) (items : List (Key × Bytes)) : Prop :=
  ∃ reserved count more, tail = withReserved reserved (Request.header .batchPut type 32 0) ++
      (LittleEndian.bytes 4 count ++ (items.flatMap Request.putItem ++ more)) ∧
    items.length < count ∧ count ≤ kMaxBatchCount ∧ (∀ item ∈ items, item.2.length < 2 ^ 32) ∧
    ∀ item : Key × Bytes, item.2.length < 2 ^ 32 → ¬ Request.putItem item <+: more

/-- The accesses that change the store after the last complete request: the leading items of a
batch that the stream cuts. -/
def TailPuts (tail : Bytes) (ops : List StoreOp) : Prop :=
  (∃ type items, CutBatch tail type items ∧ ops = (Request.batchPut type items).items) ∨
    ((¬ ∃ type items, CutBatch tail type items) ∧ ops = [])

/-- The tail begins with a rejected request. -/
def RejectedTail (tail : Bytes) : Prop := ∃ f : Frame, f.Rejected ∧ f.bytes <+: tail

/-- The stream ends inside the count of a batch. -/
def CutCount (tail : Bytes) : Prop :=
  ∃ command type reserved part, command ∈ [Command.batchPut, .batchGet, .batchExists] ∧
    tail = withReserved reserved (Request.header command type 32 0) ++ part ∧ part.length < 4

/-- What is sent after the last complete request. -/
def TailReply (tail : Bytes) (out : Bytes) : Prop :=
  ((RejectedTail tail ∨ CutCount tail) ∧ out = response (.badRequest, [])) ∨
    (¬ (RejectedTail tail ∨ CutCount tail) ∧ out = [])

/-! ## What the requests make -/

/-- The accesses of a request, with their results. -/
noncomputable def Request.acts (r : Request) (m : PlainMap) : List Act :=
  trace PlainMap.step m r.items

/-- Whether every response can be announced by its header, so that the connection stays open. -/
noncomputable def lasts : PlainMap → List Frame → Bool
  | _, [] => true
  | m, f :: fs => f.request.fits (f.request.acts m) &&
      lasts (after PlainMap.step m f.request.items) fs

/-- The requests that are served: up to the first whose response is too long, which closes the
connection. -/
noncomputable def served : PlainMap → List Frame → List Frame
  | _, [] => []
  | m, f :: fs => f ::
      if f.request.fits (f.request.acts m) then served (after PlainMap.step m f.request.items) fs
      else []

/-- The responses to the requests. -/
noncomputable def replied : PlainMap → List Frame → Bytes
  | _, [] => []
  | m, f :: fs => f.request.reply (f.request.acts m) ++
      replied (after PlainMap.step m f.request.items) fs

/-- The accesses of the requests, in order. -/
def itemsOf (frames : List Frame) : List StoreOp := frames.flatMap fun f => f.request.items

/-- The accesses of the frames, one after the other. -/
theorem itemsOf_cons (f : Frame) (frames : List Frame) :
    itemsOf (f :: frames) = f.request.items ++ itemsOf frames := List.flatMap_cons

/-! ## Reading from a stream that may end -/

section Reading

variable {input out : Bytes} {s : KVStore}

/-- Reading so many bytes ends with them, or with the end of the stream before. -/
theorem ends_readExact {Post : Option Bytes → Bytes → KVStore → Bytes → Prop} (n : ℕ)
    (hfull : n ≤ input.length → Post (some (input.take n)) (input.drop n) s out)
    (hcut : input.length < n → Post none [] s out) :
    Ends KVStore.step Post (readExact n) input s out := by
  apply Ends.bind
  apply ends_recvLoop
  · exact hfull
  · exact hcut

theorem ends_readKey {Post : Option Key → Bytes → KVStore → Bytes → Prop}
    (hfull : ∀ key rest, input = Key.toBytes key ++ rest → Post (some key) rest s out)
    (hcut : input.length < kKeyLength → Post none [] s out) :
    Ends KVStore.step Post readKey input s out := by
  apply Ends.bind
  apply ends_readExact
  · intro hlen
    apply hfull
    have hlength : (input.take kKeyLength).length = kKeyLength :=
      List.length_take.trans (Nat.min_eq_left hlen)
    have hkey : (Key.ofBytes (input.take kKeyLength)).toBytes = input.take kKeyLength := by
      show (input.take kKeyLength).takeD kKeyLength 0 = _
      rw [List.takeD_eq_take _ hlength.ge]
      exact List.take_of_length_le hlength.le
    rw [hkey, List.take_append_drop]
  · exact hcut

theorem ends_readU32 {Post : Option UInt32 → Bytes → KVStore → Bytes → Prop}
    (hfull : ∀ n rest, n < 2 ^ 32 → input = LittleEndian.bytes 4 n ++ rest →
      Post (some (UInt32.ofNat n)) rest s out)
    (hcut : input.length < 4 → Post none [] s out) :
    Ends KVStore.step Post readU32 input s out := by
  apply Ends.bind
  apply ends_readExact
  · intro hlen
    match input, hlen with
    | a :: b :: c :: d :: rest, _ =>
        have hvalue : LittleEndian.bytes 4 (LittleEndian.value [a, b, c, d]) = [a, b, c, d] :=
          LittleEndian.bytes_value [a, b, c, d]
        have hbound : LittleEndian.value [a, b, c, d] < 256 ^ 4 :=
          LittleEndian.value_lt [a, b, c, d]
        have hlt : LittleEndian.value [a, b, c, d] < 2 ^ 32 := hbound
        have hload : loadLe32 [a, b, c, d] = UInt32.ofNat (LittleEndian.value [a, b, c, d]) := by
          apply UInt32.toNat_inj.mp
          rw [UInt32.toNat_ofNat_of_lt' hlt]
          exact loadLe32_toNat a b c d []
        show Post (some (loadLe32 [a, b, c, d])) rest s out
        rw [hload]
        apply hfull _ _ hlt
        rw [hvalue]
        rfl
  · exact hcut

theorem ends_readBytes {Post : Option Bytes → Bytes → KVStore → Bytes → Prop} {n : ℕ}
    (hn : n < 2 ^ 32)
    (hfull : ∀ value rest, value.length = n → input = value ++ rest → Post (some value) rest s out)
    (hcut : input.length < n → Post none [] s out) :
    Ends KVStore.step Post (readBytes (UInt32.ofNat n)) input s out := by
  have hlen : (UInt32.ofNat n).toNat = n := UInt32.toNat_ofNat_of_lt' hn
  unfold readBytes
  split_ifs with h0
  · have hzero : n = 0 := by rw [← hlen, h0]; rfl
    exact hfull [] input hzero.symm rfl
  · rw [hlen]
    apply ends_readExact
    · intro hle
      apply hfull
      · rw [List.length_take, Nat.min_eq_left hle]
      · rw [List.take_append_drop]
    · exact hcut

/-- A rejected request ends with `BadRequest` and no more reading. -/
theorem ends_rejectRequest {Post : Bool → Bytes → KVStore → Bytes → Prop}
    (hP : Post false input s (out ++ response (.badRequest, []))) :
    Ends KVStore.step Post rejectRequest input s out := by
  apply Ends.bind
  unfold sendResponse
  rw [if_neg (by decide)]
  apply Ends.bind
  apply ends_sendLoop
  rw [if_pos rfl]
  exact hP

end Reading

/-! ## Parsing is unambiguous -/

/-- A header says which command it is for, and its fields. -/
theorem exists_header {head : Bytes} (hlen : head.length = kRequestHeaderLength) {command : Command}
    (hcommand : Command.ofByte? (head.getD 0 0) = some command) :
    ∃ reserved, head = withReserved reserved (Request.header command (head.getD 1 0)
      (loadLe16 (head.drop 4)).toNat (loadLe32 (head.drop 6)).toNat) := by
  have hcode : command.code = head.getD 0 0 := by
    have hfound := List.find?_some hcommand
    exact of_decide_eq_true hfound
  match head, hlen with
  | [b0, b1, b2, b3, b4, b5, b6, b7, b8, b9], _ =>
      refine ⟨(b2, b3), ?_⟩
      have hkey : LittleEndian.bytes 2 (loadLe16 [b4, b5, b6, b7, b8, b9]).toNat = [b4, b5] := by
        rw [loadLe16_toNat]
        exact LittleEndian.bytes_value [b4, b5]
      have hval : LittleEndian.bytes 4 (loadLe32 [b6, b7, b8, b9]).toNat = [b6, b7, b8, b9] := by
        rw [loadLe32_toNat]
        exact LittleEndian.bytes_value [b6, b7, b8, b9]
      have hcode : command.code = b0 := hcode
      show _ = withReserved (b2, b3) (command.code :: b1 :: (LittleEndian.bytes 2 0 ++
        LittleEndian.bytes 2 (loadLe16 [b4, b5, b6, b7, b8, b9]).toNat ++
        LittleEndian.bytes 4 (loadLe32 [b6, b7, b8, b9]).toNat))
      rw [hkey, hval, hcode]
      rfl

/-- An item is read back with what follows it. -/
theorem putItem_append_inj {x y : Key × Bytes} (hx : x.2.length < 2 ^ 32)
    (hy : y.2.length < 2 ^ 32) {a b : Bytes}
    (h : Request.putItem x ++ a = Request.putItem y ++ b) : x = y ∧ a = b := by
  unfold Request.putItem at h
  simp only [List.append_assoc] at h
  obtain ⟨hkey, h⟩ := List.append_inj h (by rw [Key.length_toBytes, Key.length_toBytes])
  obtain ⟨hlen, h⟩ := List.append_inj h (by
    rw [LittleEndian.length_bytes, LittleEndian.length_bytes])
  have hlen : x.2.length = y.2.length := by
    have hvalue := congrArg LittleEndian.value hlen
    rwa [LittleEndian.value_bytes_of_lt hx, LittleEndian.value_bytes_of_lt hy] at hvalue
  obtain ⟨hvalue, hrest⟩ := List.append_inj h hlen
  refine ⟨Prod.ext ?_ hvalue, hrest⟩
  rw [← Key.ofBytes_toBytes x.1, hkey, Key.ofBytes_toBytes]

/-- The leading items of a batch are determined by its bytes. -/
theorem leadingItems_unique {xs ys : List (Key × Bytes)} {a b : Bytes}
    (hxs : ∀ x ∈ xs, x.2.length < 2 ^ 32) (hys : ∀ y ∈ ys, y.2.length < 2 ^ 32)
    (ha : ∀ item : Key × Bytes, item.2.length < 2 ^ 32 → ¬ Request.putItem item <+: a)
    (hb : ∀ item : Key × Bytes, item.2.length < 2 ^ 32 → ¬ Request.putItem item <+: b)
    (h : xs.flatMap Request.putItem ++ a = ys.flatMap Request.putItem ++ b) : xs = ys := by
  induction xs generalizing ys with
  | nil =>
      cases ys with
      | nil => rfl
      | cons y ys =>
          rw [List.flatMap_nil, List.nil_append, List.flatMap_cons, List.append_assoc] at h
          exact absurd ⟨_, h.symm⟩ (ha y (hys y List.mem_cons_self))
  | cons x xs ih =>
      cases ys with
      | nil =>
          rw [List.flatMap_nil, List.nil_append, List.flatMap_cons, List.append_assoc] at h
          exact absurd ⟨_, h⟩ (hb x (hxs x List.mem_cons_self))
      | cons y ys =>
          rw [List.flatMap_cons, List.flatMap_cons, List.append_assoc, List.append_assoc] at h
          obtain ⟨rfl, hrest⟩ :=
            putItem_append_inj (hxs x List.mem_cons_self) (hys y List.mem_cons_self) h
          rw [ih (fun x' hx' => hxs x' (List.mem_cons_of_mem _ hx'))
            (fun y' hy' => hys y' (List.mem_cons_of_mem _ hy')) hrest]

/-- Two headers at the beginning of the same bytes are for the same command and type. -/
theorem header_append_inj {reserved reserved' : UInt8 × UInt8} {command command' : Command}
    {type type' : UInt8} {keyLen keyLen' valLen valLen' : ℕ} {a b : Bytes}
    (h : withReserved reserved (Request.header command type keyLen valLen) ++ a =
      withReserved reserved' (Request.header command' type' keyLen' valLen') ++ b) :
    command = command' ∧ type = type' ∧ a = b := by
  obtain ⟨hhead, hrest⟩ := List.append_inj h rfl
  have hcode : command.code = command'.code := congrArg (fun l => l.getD 0 0) hhead
  have htype : type = type' := congrArg (fun l => l.getD 1 0) hhead
  refine ⟨?_, htype, hrest⟩
  have hsome := congrArg Command.ofByte? hcode
  rw [Command.ofByte?_code, Command.ofByte?_code] at hsome
  exact Option.some.inj hsome

/-- A tail is a batch that was cut off in one way at most. -/
theorem cutBatch_unique {tail : Bytes} {type type' : UInt8} {items items' : List (Key × Bytes)}
    (h : CutBatch tail type items) (h' : CutBatch tail type' items') :
    type = type' ∧ items = items' := by
  obtain ⟨reserved, count, more, htail, _, _, hitems, hmore⟩ := h
  obtain ⟨reserved', count', more', htail', _, _, hitems', hmore'⟩ := h'
  obtain ⟨_, htype, hbody⟩ := header_append_inj (htail.symm.trans htail')
  obtain ⟨_, hbody⟩ := List.append_inj hbody (by
    rw [LittleEndian.length_bytes, LittleEndian.length_bytes])
  exact ⟨htype, leadingItems_unique hitems hitems' hmore hmore' hbody⟩

/-- So what is put for it is determined. -/
theorem TailPuts.eq_of_cutBatch {tail : Bytes} {ops : List StoreOp} (h : TailPuts tail ops)
    {type : UInt8} {items : List (Key × Bytes)} (hcut : CutBatch tail type items) :
    ops = (Request.batchPut type items).items := by
  rcases h with ⟨type', items', hcut', rfl⟩ | ⟨hnone, _⟩
  · obtain ⟨rfl, rfl⟩ := cutBatch_unique hcut hcut'
    rfl
  · exact absurd ⟨type, items, hcut⟩ hnone

theorem TailPuts.eq_nil {tail : Bytes} {ops : List StoreOp} (h : TailPuts tail ops)
    (hnone : ∀ type items, ¬ CutBatch tail type items) : ops = [] := by
  rcases h with ⟨type, items, hcut, _⟩ | ⟨_, rfl⟩
  · exact absurd hcut (hnone type items)
  · rfl

/-- A tail that is rejected, or cut off in its count, is replied to with `BadRequest`. -/
theorem TailReply.eq_reject {tail out : Bytes} (h : TailReply tail out)
    (hcut : RejectedTail tail ∨ CutCount tail) : out = response (.badRequest, []) := by
  rcases h with ⟨_, rfl⟩ | ⟨hnone, _⟩
  · rfl
  · exact absurd hcut hnone

theorem TailReply.eq_nil {tail out : Bytes} (h : TailReply tail out)
    (hrejected : ¬ RejectedTail tail) (hcut : ¬ CutCount tail) : out = [] := by
  rcases h with ⟨hsome, _⟩ | ⟨_, rfl⟩
  · exact absurd hsome (not_or.mpr ⟨hrejected, hcut⟩)
  · rfl

/-! ## A stream that ends inside a request -/

section Cut

variable {input out : Bytes} {s : KVStore}

/-- A stream that holds an item holds its key and its length field. -/
theorem putItem_head_le {item : Key × Bytes} (h : Request.putItem item <+: input) :
    kKeyLength + 4 ≤ input.length := by
  have hle := h.length_le
  rw [Request.length_putItem] at hle
  omega

/-- The length field that was read is the one of the item, so the value is on the stream. -/
theorem putItem_value_le {item : Key × Bytes} {key : Key} {len : ℕ} {rest : Bytes}
    (hitem : item.2.length < 2 ^ 32) (hlen : len < 2 ^ 32)
    (h : Request.putItem item <+: key.toBytes ++ (LittleEndian.bytes 4 len ++ rest)) :
    len ≤ rest.length := by
  obtain ⟨more, hmore⟩ := h
  unfold Request.putItem at hmore
  simp only [List.append_assoc] at hmore
  obtain ⟨_, hmore⟩ := List.append_inj hmore (by rw [Key.length_toBytes, Key.length_toBytes])
  obtain ⟨hfield, hmore⟩ := List.append_inj hmore (by
    rw [LittleEndian.length_bytes, LittleEndian.length_bytes])
  have hsame : item.2.length = len := by
    have hvalue := congrArg LittleEndian.value hfield
    rwa [LittleEndian.value_bytes_of_lt hitem, LittleEndian.value_bytes_of_lt hlen] at hvalue
  rw [← hmore, List.length_append, hsame]
  exact Nat.le_add_right _ _

/-- Of a batch that the stream cuts, the items that are complete are stored. -/
theorem ends_batchPutItems (type : UInt8) (n : ℕ)
    (h : ∀ items : List (Key × Bytes), items.length = n → (∀ item ∈ items, item.2.length < 2 ^ 32) →
      ¬ items.flatMap Request.putItem <+: input) :
    Ends KVStore.step (fun done _ s' out' => done = false ∧ out' = out ∧ ∃ items more,
        items.length < n ∧ (∀ item ∈ items, item.2.length < 2 ^ 32) ∧
        input = items.flatMap Request.putItem ++ more ∧
        (∀ item : Key × Bytes, item.2.length < 2 ^ 32 → ¬ Request.putItem item <+: more) ∧
        s' = after KVStore.step s (Request.batchPut type items).items)
      (batchPutItems type n) input s out := by
  induction n generalizing input s with
  | zero => exact absurd List.nil_prefix (h [] rfl fun item hitem => absurd hitem List.not_mem_nil)
  | succ n ih =>
      -- where the first item is not complete, nothing is stored
      have hnone : (∀ item : Key × Bytes, item.2.length < 2 ^ 32 → ¬ Request.putItem item <+: input) →
          ∃ (items : List (Key × Bytes)) (more : Bytes), items.length < n + 1 ∧
            (∀ item ∈ items, item.2.length < 2 ^ 32) ∧
            input = items.flatMap Request.putItem ++ more ∧
            (∀ item : Key × Bytes, item.2.length < 2 ^ 32 → ¬ Request.putItem item <+: more) ∧
            s = after KVStore.step s (Request.batchPut type items).items := by
        intro hinput
        exact ⟨[], input, Nat.succ_pos n, fun item hitem => absurd hitem List.not_mem_nil, rfl,
          hinput, rfl⟩
      apply Ends.bind
      apply ends_readKey
      · rintro key rest rfl
        apply Ends.bind
        apply ends_readU32
        · rintro len rest hlen rfl
          apply Ends.bind
          apply ends_readBytes hlen
          · rintro value rest rfl rfl
            have hitem : key.toBytes ++ (LittleEndian.bytes 4 value.length ++ (value ++ rest)) =
                Request.putItem (key, value) ++ rest := by
              unfold Request.putItem
              simp only [List.append_assoc]
            rw [hitem] at h ⊢
            have hrest : ∀ items : List (Key × Bytes), items.length = n →
                (∀ item ∈ items, item.2.length < 2 ^ 32) →
                ¬ items.flatMap Request.putItem <+: rest := by
              intro items hitems hlt hprefix
              apply h ((key, value) :: items)
              · rw [List.length_cons, hitems]
              · intro item hitem
                rcases List.mem_cons.mp hitem with rfl | hitem
                · exact hlen
                · exact hlt item hitem
              · rw [List.flatMap_cons]
                exact (List.prefix_append_right_inj _).mpr hprefix
            apply (ih (s := s.put type key value |>.2) hrest).mono
            rintro done input' s' out' ⟨rfl, rfl, items, more, hcount, hlt, rfl, hmore, rfl⟩
            refine ⟨rfl, rfl, (key, value) :: items, more, Nat.succ_lt_succ hcount, ?_, ?_, hmore, rfl⟩
            · intro item hitem
              rcases List.mem_cons.mp hitem with rfl | hitem
              · exact hlen
              · exact hlt item hitem
            · rw [List.flatMap_cons, List.append_assoc]
          · intro hshort
            refine ⟨rfl, rfl, hnone ?_⟩
            intro item hitem hprefix
            exact hshort.not_ge (putItem_value_le hitem hlen hprefix)
        · intro hshort
          refine ⟨rfl, rfl, hnone ?_⟩
          intro item _ hprefix
          have hle := putItem_head_le hprefix
          rw [List.length_append, Key.length_toBytes] at hle
          omega
      · intro hshort
        refine ⟨rfl, rfl, hnone ?_⟩
        intro item _ hprefix
        have hle := putItem_head_le hprefix
        omega

/-- A batch of lookups that the stream cuts is not answered, and changes nothing. -/
theorem ends_keyLoop {items : ℕ → Bytes → Server (Option Bytes)} {op : Key → StoreOp}
    {piece : Act → Bytes} (hloop : KeyLoop items op piece)
    (hread : ∀ key s, (KVStore.step (op key) s).2 = s) (n : ℕ) (payload : Bytes)
    (h : ∀ keys : List Key, keys.length = n → ¬ keys.flatMap Key.toBytes <+: input) :
    Ends KVStore.step (fun answer _ s' out' => answer = none ∧ s' = s ∧ out' = out)
      (items n payload) input s out := by
  induction n generalizing input payload with
  | zero => exact absurd List.nil_prefix (h [] rfl)
  | succ n ih =>
      rw [hloop.succ]
      apply Ends.bind
      apply ends_readKey
      · rintro key rest rfl
        apply Ends.bind
        show Ends _ _ _ _ (KVStore.step (op key) s).2 _
        rw [hread]
        apply ih
        intro keys hkeys hprefix
        apply h (key :: keys)
        · rw [List.length_cons, hkeys]
        · rw [List.flatMap_cons]
          exact (List.prefix_append_right_inj _).mpr hprefix
      · intro _
        exact ⟨rfl, rfl, rfl⟩

/-- What is left when the stream ends inside the body of an accepted header. -/
def CutShort (ops : List StoreOp) (reply : Bytes) (s : KVStore) (out : Bytes) (handled : Bool)
    (_ : Bytes) (s' : KVStore) (out' : Bytes) : Prop :=
  handled = false ∧ s' = after KVStore.step s ops ∧ out' = out ++ reply

variable {reserved : UInt8 × UInt8} {type : UInt8} {ops : List StoreOp} {reply : Bytes}

/-- The stream ended before anything was stored or answered. -/
theorem CutShort.nothing {rest : Bytes} (hops : ops = []) (hreply : reply = []) :
    CutShort ops reply s out false rest s out := by
  rw [hops, hreply]
  exact ⟨rfl, rfl, (List.append_nil _).symm⟩

/-- The body is one key, and the stream ends inside it. -/
theorem ends_cutKey (answer : Key → Server Bool)
    (hincomplete : ∀ (key : Key) (rest : Bytes), input ≠ key.toBytes ++ rest)
    (hops : ops = []) (hreply : reply = []) :
    Ends KVStore.step (CutShort ops reply s out)
      (do
        let some key ← readKey | return false
        answer key) input s out := by
  apply Ends.bind
  apply ends_readKey
  · intro key rest hinput
    exact absurd hinput (hincomplete key rest)
  · intro _
    exact CutShort.nothing hops hreply

/-- The body is a count of keys, and the loop that answers them does not reach the last. -/
theorem ends_cutPayload {items : Server (Option Bytes)}
    (hitems : Ends KVStore.step (fun answer _ s' out' => answer = none ∧ s' = s ∧ out' = out)
      items input s out)
    (hops : ops = []) (hreply : reply = []) :
    Ends KVStore.step (CutShort ops reply s out)
      (do
        let some payload ← items | return false
        sendResponse .ok payload) input s out := by
  apply Ends.bind
  apply hitems.mono
  rintro answer input' s' out' ⟨rfl, rfl, rfl⟩
  exact CutShort.nothing hops hreply

/-- The stream ends inside a request that is not a batch. -/
theorem TailPuts.eq_nil_of_command {command : Command} {keyLen valLen : ℕ}
    (hcommand : command ≠ .batchPut) (h : TailPuts
      (withReserved reserved (Request.header command type keyLen valLen) ++ input) ops) :
    ops = [] := by
  apply h.eq_nil
  rintro type' items ⟨reserved', count, more, htail, _⟩
  exact hcommand (header_append_inj htail).1

/-- A tail is not cut off in its count if the request has none, or if the count is there. -/
theorem not_cutCount {command : Command} {keyLen valLen : ℕ}
    (h : command ∉ [Command.batchPut, .batchGet, .batchExists] ∨ 4 ≤ input.length) :
    ¬ CutCount (withReserved reserved (Request.header command type keyLen valLen) ++ input) := by
  rintro ⟨command', type', reserved', part, hbatch, htail, hpart⟩
  obtain ⟨rfl, _, rfl⟩ := header_append_inj htail
  rcases h with h | h
  · exact h hbatch
  · omega

/-- A batch whose count is cut is answered `BadRequest`; one whose count is read goes on with its
items. -/
theorem ends_batch {command : Command}
    (hbatch : command ∈ [Command.batchPut, .batchGet, .batchExists])
    (hincomplete : ∀ f : Frame, f.request.Valid →
      ¬ f.bytes <+: withReserved reserved (Request.header command type 32 0) ++ input)
    (hops : TailPuts (withReserved reserved (Request.header command type 32 0) ++ input) ops)
    (hreply : TailReply (withReserved reserved (Request.header command type 32 0) ++ input) reply)
    (rest : UInt32 → Server Bool)
    (hrest : ∀ (n : ℕ) (later : Bytes), n ≤ kMaxBatchCount →
      input = LittleEndian.bytes 4 n ++ later → reply = [] →
      Ends KVStore.step (CutShort ops reply s out) (rest (UInt32.ofNat n)) later s out) :
    Ends KVStore.step (CutShort ops reply s out)
      (do
        let some count ← readU32 | rejectRequest
        if count.toNat > kMaxBatchCount then rejectRequest else rest count) input s out := by
  -- the count comes first, if the stream has it
  apply Ends.bind
  apply ends_readU32
  · rintro n later hn rfl
    dsimp only
    rw [UInt32.toNat_ofNat_of_lt' hn]
    split_ifs with hmax
    · -- a count over the limit would be complete
      refine absurd ?_ (hincomplete ⟨.oversized command type n [], reserved⟩ ⟨hbatch, hmax, hn⟩)
      exact (List.prefix_append_right_inj _).mpr (List.prefix_append _ _)
    -- a count that is accepted: the rest goes by the command
    · apply hrest n later (Nat.not_lt.mp hmax) rfl
      apply hreply.eq_nil
      · rintro ⟨f, hf, hprefix⟩
        exact hincomplete f hf.1 hprefix
      · apply not_cutCount
        rw [List.length_append, LittleEndian.length_bytes]
        exact Or.inr (Nat.le_add_right _ _)
  -- the stream ends inside the count: nothing is put, and the request is rejected
  · intro hshort
    have hempty : ops = [] := by
      apply hops.eq_nil
      rintro type' items ⟨reserved', count, more, htail, _⟩
      obtain ⟨_, _, rfl⟩ := header_append_inj htail
      rw [List.length_append, LittleEndian.length_bytes] at hshort
      omega
    have hreject : reply = response (.badRequest, []) :=
      hreply.eq_reject (Or.inr ⟨command, type, reserved, input, hbatch, rfl, hshort⟩)
    apply ends_rejectRequest
    rw [hempty, hreject]
    exact ⟨rfl, rfl, rfl⟩

/-- The header is accepted, so its fields are those of a request. -/
theorem accepted_header {head : Bytes} (hlen : head.length = kRequestHeaderLength)
    (haccepted : ¬ RejectedHeader head) :
    ∃ command reserved type keyLen valLen, keyLen < 2 ^ 16 ∧ valLen < 2 ^ 32 ∧
      head = withReserved reserved (Request.header command type keyLen valLen) ∧
      match command with
      | .put => keyLen = 32
      | .clear | .size => keyLen = 0 ∧ valLen = 0
      | _ => keyLen = 32 ∧ valLen = 0 := by
  unfold RejectedHeader at haccepted
  cases hcommand : Command.ofByte? (head.getD 0 0) with
  -- no such command: the header would be rejected
  | none =>
      rw [hcommand] at haccepted
      exact absurd trivial haccepted
  | some command =>
      rw [hcommand] at haccepted
      obtain ⟨reserved, hhead⟩ := exists_header hlen hcommand
      -- what the header says is read off its bytes
      refine ⟨command, reserved, _, _, _, (loadLe16 (head.drop 4)).toNat_lt,
        (loadLe32 (head.drop 6)).toNat_lt, hhead, ?_⟩
      have hzero16 : ∀ v : UInt16, v = 0 → v.toNat = 0 := by
        rintro v rfl
        rfl
      have hzero32 : ∀ v : UInt32, v = 0 → v.toNat = 0 := by
        rintro v rfl
        rfl
      cases command with
      -- a put needs the length of a key, and any length of its value
      | put => exact not_not.mp haccepted
      -- neither a key nor a value
      | clear =>
          obtain ⟨hkey, hval⟩ := not_or.mp haccepted
          exact ⟨hzero16 _ (not_not.mp hkey), hzero32 _ (not_not.mp hval)⟩
      | size =>
          obtain ⟨hkey, hval⟩ := not_or.mp haccepted
          exact ⟨hzero16 _ (not_not.mp hkey), hzero32 _ (not_not.mp hval)⟩
      -- a key, and no value
      | _ =>
          obtain ⟨hkey, hval⟩ := not_or.mp haccepted
          exact ⟨not_not.mp hkey, hzero32 _ (not_not.mp hval)⟩

/-- **A request that was cut off**: its complete items are put, and it is replied to as its tail
says. -/
theorem ends_cutRequest {head : Bytes} (hlen : head.length = kRequestHeaderLength)
    (haccepted : ¬ RejectedHeader head)
    (hincomplete : ∀ f : Frame, f.request.Valid → ¬ f.bytes <+: head ++ input)
    (hops : TailPuts (head ++ input) ops) (hreply : TailReply (head ++ input) reply) :
    Ends KVStore.step (CutShort ops reply s out) (handleRequest head) input s out := by
  have hrejected : ¬ RejectedTail (head ++ input) := by
    rintro ⟨f, hf, hprefix⟩
    exact hincomplete f hf.1 hprefix
  obtain ⟨command, reserved, type, keyLen, valLen, hkeyLen, hvalLen, rfl, hfields⟩ :=
    accepted_header hlen haccepted
  rw [handleRequest_withReserved _ rfl]
  cases command with
  | put =>
      obtain rfl := hfields
      have hempty : ops = [] := hops.eq_nil_of_command (by decide)
      have hsilent : reply = [] := hreply.eq_nil hrejected (not_cutCount (Or.inl (by decide)))
      have hnothing : CutShort ops reply s out false [] s out := CutShort.nothing hempty hsilent
      show Ends _ _ (if _ then _ else _) _ _ _
      rw [if_neg (not_not_intro (header_keyLength .put type)), header_valLen .put type hvalLen]
      apply Ends.bind
      apply ends_readKey
      · rintro key rest rfl
        apply Ends.bind
        apply ends_readBytes hvalLen
        · rintro value rest rfl rfl
          -- the request would be complete
          refine absurd ?_ (hincomplete ⟨.put type key value, reserved⟩ hvalLen)
          refine ⟨rest, ?_⟩
          simp only [Frame.bytes, Frame.head, Request.head, Request.body, List.append_assoc]
        · intro _
          exact hnothing
      · intro _
        exact hnothing
  | get =>
      obtain ⟨rfl, rfl⟩ := hfields
      show Ends _ _ (if _ then _ else _) _ _ _
      rw [if_neg (by rw [header_keyLength, header_noValue]; simp)]
      apply ends_cutKey
      · rintro key rest rfl
        apply hincomplete ⟨.get type key, reserved⟩ trivial
        exact (List.prefix_append_right_inj _).mpr (List.prefix_append _ _)
      · exact hops.eq_nil_of_command (by decide)
      · exact hreply.eq_nil hrejected (not_cutCount (Or.inl (by decide)))
  | exists_ =>
      obtain ⟨rfl, rfl⟩ := hfields
      show Ends _ _ (if _ then _ else _) _ _ _
      rw [if_neg (by rw [header_keyLength, header_noValue]; simp)]
      apply ends_cutKey
      · rintro key rest rfl
        apply hincomplete ⟨.exists_ type key, reserved⟩ trivial
        exact (List.prefix_append_right_inj _).mpr (List.prefix_append _ _)
      · exact hops.eq_nil_of_command (by decide)
      · exact hreply.eq_nil hrejected (not_cutCount (Or.inl (by decide)))
  | clear =>
      obtain ⟨rfl, rfl⟩ := hfields
      refine absurd ?_ (hincomplete ⟨.clear type, reserved⟩ trivial)
      exact List.prefix_append _ _
  | size =>
      obtain ⟨rfl, rfl⟩ := hfields
      refine absurd ?_ (hincomplete ⟨.size type, reserved⟩ trivial)
      exact List.prefix_append _ _
  | batchPut =>
      obtain ⟨rfl, rfl⟩ := hfields
      show Ends _ _ (if _ then _ else _) _ _ _
      rw [if_neg (by rw [header_keyLength, header_noValue]; simp)]
      apply ends_batch (by decide) hincomplete hops hreply
      rintro n later hn rfl hsilent
      rw [(count_toNat hn).2]
      apply Ends.bind
      apply (ends_batchPutItems type n _).mono
      · rintro done input' s' out' ⟨rfl, rfl, items, more, hcount, hlt, rfl, hmore, rfl⟩
        have hcut : CutBatch (withReserved reserved (Request.header .batchPut type 32 0) ++
            (LittleEndian.bytes 4 n ++ (items.flatMap Request.putItem ++ more))) type items :=
          ⟨reserved, n, more, rfl, hcount, hn, hlt, hmore⟩
        -- what a cut batch stores is what its complete items ask for
        rw [hops.eq_of_cutBatch hcut, hsilent]
        exact ⟨rfl, rfl, (List.append_nil _).symm⟩
      · rintro items rfl hlt ⟨more, hmore⟩
        refine hincomplete ⟨.batchPut type items, reserved⟩ ⟨hn, hlt⟩ ⟨more, ?_⟩
        rw [← hmore]
        simp only [Frame.bytes, Frame.head, Request.head, Request.body, List.append_assoc]
  | batchGet =>
      obtain ⟨rfl, rfl⟩ := hfields
      show Ends _ _ (if _ then _ else _) _ _ _
      rw [if_neg (by rw [header_keyLength, header_noValue]; simp)]
      apply ends_batch (by decide) hincomplete hops hreply
      rintro n later hn rfl hsilent
      rw [(count_toNat hn).2]
      refine ends_cutPayload (ends_keyLoop (batchGetItems_keyLoop type) (fun _ _ => rfl) n _ ?_)
        (hops.eq_nil_of_command (by decide)) hsilent
      rintro keys rfl ⟨more, hmore⟩
      refine hincomplete ⟨.batchGet type keys, reserved⟩ hn ⟨more, ?_⟩
      rw [← hmore]
      simp only [Frame.bytes, Frame.head, Request.head, Request.body, List.append_assoc]
  | batchExists =>
      obtain ⟨rfl, rfl⟩ := hfields
      show Ends _ _ (if _ then _ else _) _ _ _
      rw [if_neg (by rw [header_keyLength, header_noValue]; simp)]
      apply ends_batch (by decide) hincomplete hops hreply
      rintro n later hn rfl hsilent
      rw [(count_toNat hn).2]
      refine ends_cutPayload (ends_keyLoop (batchExistsItems_keyLoop type) (fun _ _ => rfl) n _ ?_)
        (hops.eq_nil_of_command (by decide)) hsilent
      rintro keys rfl ⟨more, hmore⟩
      refine hincomplete ⟨.batchExists type keys, reserved⟩ hn ⟨more, ?_⟩
      rw [← hmore]
      simp only [Frame.bytes, Frame.head, Request.head, Request.body, List.append_assoc]

theorem exists_reserved {head : Bytes} (hlen : head.length = kRequestHeaderLength) :
    ∃ reserved, withReserved reserved head = head := by
  match head, hlen with
  | [_, _, b2, b3, _, _, _, _, _, _], _ => exact ⟨(b2, b3), rfl⟩

/-- The last turn where no request of the tail is complete. -/
theorem ends_cutTail {tail : Bytes}
    (hincomplete : ∀ f : Frame, f.request.Valid → ¬ f.bytes <+: tail) (hops : TailPuts tail ops)
    (hreply : TailReply tail reply) :
    Ends KVStore.step (fun a _ s' out' => (∃ b, a = some b) ∧ s' = after KVStore.step s ops ∧
      out' = out ++ reply) handleClientTurn tail s out := by
  apply Ends.bind
  apply ends_readExact
  -- the header is there: the request is cut off behind it
  · intro hlen
    have htail : tail.take kRequestHeaderLength ++ tail.drop kRequestHeaderLength = tail :=
      List.take_append_drop _ _
    have hhead : (tail.take kRequestHeaderLength).length = kRequestHeaderLength :=
      List.length_take.trans (Nat.min_eq_left hlen)
    generalize tail.take kRequestHeaderLength = head at htail hhead
    generalize tail.drop kRequestHeaderLength = input at htail
    subst htail
    -- it is not rejected, or it would be a frame of its own
    have haccepted : ¬ RejectedHeader head := by
      intro hrejected
      obtain ⟨reserved, hreserved⟩ := exists_reserved hhead
      refine hincomplete ⟨.malformed head [], reserved⟩ ⟨hhead, hrejected⟩ ?_
      show withReserved reserved head ++ [] <+: _
      rw [hreserved, List.append_nil]
      exact List.prefix_append _ _
    apply Ends.bind
    apply (ends_cutRequest hhead haccepted hincomplete hops hreply).mono
    rintro handled input' s' out' ⟨rfl, rfl, rfl⟩
    exact ⟨⟨false, rfl⟩, rfl, rfl⟩
  -- the stream ends inside the header: nothing is put, and nothing replied
  · intro hshort
    have hempty : ops = [] := by
      apply hops.eq_nil
      rintro type items ⟨reserved, count, more, htail, _⟩
      have hlen : tail.length = kRequestHeaderLength + _ := htail ▸ List.length_append
      omega
    have hsilent : reply = [] := by
      apply hreply.eq_nil
      · rintro ⟨f, hf, hprefix⟩
        exact hincomplete f hf.1 hprefix
      · rintro ⟨command, type, reserved, part, _, htail, _⟩
        have hlen : tail.length = kRequestHeaderLength + _ := htail ▸ List.length_append
        omega
    rw [hempty, hsilent]
    exact ⟨⟨true, rfl⟩, rfl, (List.append_nil _).symm⟩

end Cut

/-! ## A rejected request -/

/-- Whether it is rejected does not hang on them. -/
theorem rejectedHeader_withReserved {reserved : UInt8 × UInt8} {head : Bytes}
    (hlen : head.length = kRequestHeaderLength) :
    RejectedHeader (withReserved reserved head) ↔ RejectedHeader head := by
  obtain ⟨_, hcommand, _, hrest⟩ := withReserved_eq reserved hlen
  have hval : (withReserved reserved head).drop 6 = head.drop 6 := by
    have hdrop := congrArg (List.drop 2) hrest
    rw [List.drop_drop, List.drop_drop] at hdrop
    exact hdrop
  unfold RejectedHeader
  rw [hcommand, hrest, hval]

/-- The header of a batch of puts is accepted. -/
theorem batchPut_not_rejected (type : UInt8) :
    ¬ RejectedHeader (Request.header .batchPut type 32 0) := by
  show ¬ (_ ∨ _)
  rw [header_keyLen .batchPut type (by decide), header_valLen .batchPut type (by decide)]
  decide

/-- A tail that begins with a rejected request stores nothing. -/
theorem TailPuts.eq_nil_of_rejected {tail : Bytes} {ops : List StoreOp} (h : TailPuts tail ops)
    {f : Frame} (hf : f.Rejected) (hbegins : f.bytes <+: tail) : ops = [] := by
  -- a tail that is put from is the beginning of a batch of puts
  apply h.eq_nil
  rintro type items ⟨reserved', count, more, rfl, hcount, hmax, _⟩
  obtain ⟨rest, hrest⟩ := hbegins
  obtain ⟨request, reserved⟩ := f
  obtain ⟨hvalid, hrejected⟩ := hf
  cases request with
  | malformed head later =>
      obtain ⟨hlen, hhead⟩ := hvalid
      -- its header would be the one that is rejected
      have hbytes : withReserved reserved head ++ ([] ++ rest) =
          withReserved reserved' (Request.header .batchPut type 32 0) ++ (LittleEndian.bytes 4 count ++
            (items.flatMap Request.putItem ++ more)) := by
        rw [← hrest, ← List.append_assoc]
        rfl
      have hsame := (List.append_inj hbytes (withReserved_eq reserved hlen).1).1
      have hrejected' : RejectedHeader (withReserved reserved head) :=
        (rejectedHeader_withReserved hlen).mpr hhead
      rw [hsame, rejectedHeader_withReserved rfl] at hrejected'
      exact batchPut_not_rejected type hrejected'
  | oversized command type' n later =>
      obtain ⟨_, hn, hlt⟩ := hvalid
      -- or its count the one that is over the limit
      have hbytes : withReserved reserved (Request.header command type' 32 0) ++
          (LittleEndian.bytes 4 n ++ rest) =
          withReserved reserved' (Request.header .batchPut type 32 0) ++ (LittleEndian.bytes 4 count ++
            (items.flatMap Request.putItem ++ more)) := by
        rw [← hrest, ← List.append_assoc]
        rfl
      obtain ⟨_, _, hbody⟩ := header_append_inj hbytes
      obtain ⟨hfield, _⟩ := List.append_inj hbody (by
        rw [LittleEndian.length_bytes, LittleEndian.length_bytes])
      -- but its count is within it
      have hvalue := congrArg LittleEndian.value hfield
      rw [LittleEndian.value_bytes_of_lt hlt,
        LittleEndian.value_bytes_of_lt (count_toNat hmax).1] at hvalue
      omega
  | _ => cases hrejected

/-- The last turn where the tail begins with a rejected request: the request is answered, and
what follows it is not read. -/
theorem ends_rejectedTail {f : Frame} (hf : f.Rejected) (rest : Bytes) {s : KVStore} {out : Bytes} :
    Ends KVStore.step (fun a input' s' out' => a = some false ∧ input' = rest ∧ s' = s ∧
      out' = out ++ response (.badRequest, [])) handleClientTurn (f.bytes ++ rest) s out := by
  obtain ⟨hvalid, hrejected⟩ := hf
  have hitems : f.request.items = [] := by
    generalize f.request = r at hrejected
    cases r with
    | malformed head later => rfl
    | oversized command type n later => rfl
    | _ => cases hrejected
  have hreply : f.request.reply [] = response (.badRequest, []) := by
    generalize f.request = r at hrejected
    cases r with
    | malformed head later => rfl
    | oversized command type n later => rfl
    | _ => cases hrejected
  have hends : Ends KVStore.step _ handleClientTurn (f.bytes ++ rest) s (out ++ []) :=
    (serves_frame hvalid).ends rest out
  rw [List.append_nil] at hends
  apply hends.mono
  rintro a input' s' out' ⟨t, ⟨hinput, htodo, hdid, hout, hkeeps⟩, rfl, rfl, _, hafter⟩
  rw [hitems, List.map_eq_nil_iff] at hdid
  rw [htodo, hitems] at hafter
  rw [hdid] at hout hkeeps
  have hcloses : f.request.keeps [] = false := by
    rw [Request.keeps, hrejected, Bool.not_true, Bool.and_false]
  rw [hcloses] at hkeeps
  rw [hinput, hout, hreply]
  exact ⟨hkeeps, rfl, hafter, rfl⟩

/-! ## The whole stream -/

/-- What `HandleClient` leaves of a stream: the store, the bytes sent and the bytes not read. -/
def Leaves (m : PlainMap) (frames : List Frame) (tail : Bytes) (ops : List StoreOp)
    (reply : Bytes) (base : Bytes) (input' : Bytes) (s' : KVStore) (out' : Bytes) : Prop :=
  s'.view = after PlainMap.step m
      (itemsOf (served m frames) ++ if lasts m frames then ops else []) ∧
    out' = base ++ (replied m (served m frames) ++ if lasts m frames then reply else []) ∧
    (lasts m frames = true → RejectedTail tail → ∃ f : Frame, f.Rejected ∧ tail = f.bytes ++ input')

section Leaves

variable {m : PlainMap} {f : Frame} {frames : List Frame} {tail reply base input' out' : Bytes}
  {ops : List StoreOp} {s' : KVStore}

/-- A request that is answered leaves the rest to the next turns. -/
theorem Leaves.again (hfits : f.request.fits (f.request.acts m) = true)
    (h : Leaves (after PlainMap.step m f.request.items) frames tail ops reply
      (base ++ f.request.reply (f.request.acts m)) input' s' out') :
    Leaves m (f :: frames) tail ops reply base input' s' out' := by
  obtain ⟨hstore, hsent, hunread⟩ := h
  refine ⟨?_, ?_, ?_⟩
  · rw [hstore, served, lasts, hfits, if_pos rfl, itemsOf_cons, List.append_assoc,
      after_append _ _ f.request.items, Bool.true_and]
  · rw [hsent, served, lasts, hfits, if_pos rfl, replied, Bool.true_and]
    simp only [List.append_assoc]
  · rw [lasts, hfits, Bool.true_and]
    exact hunread

/-- A request whose response is too long is served, and nothing after it is. -/
theorem Leaves.closed (hfits : f.request.fits (f.request.acts m) = false)
    (hview : s'.view = after PlainMap.step m f.request.items) :
    Leaves m (f :: frames) tail ops reply base input' s'
      (base ++ f.request.reply (f.request.acts m)) := by
  refine ⟨?_, ?_, ?_⟩
  · rw [hview, served, lasts, hfits, if_neg Bool.false_ne_true, Bool.false_and,
      if_neg Bool.false_ne_true, List.append_nil]
    show _ = after PlainMap.step m (f.request.items ++ [])
    rw [List.append_nil]
  · rw [served, lasts, hfits, if_neg Bool.false_ne_true, Bool.false_and,
      if_neg Bool.false_ne_true, List.append_nil, replied, replied, List.append_nil]
  · rw [lasts, hfits, Bool.false_and]
    exact fun h => absurd h Bool.false_ne_true

end Leaves

/-- **A stream**, from its first frame to its tail. -/
theorem leads_of_split {frames : List Frame} {tail : Bytes} {ops : List StoreOp} {reply : Bytes}
    (haccepted : ∀ f ∈ frames, f.Accepted) (hended : ∀ f : Frame, f.Accepted → ¬ f.bytes <+: tail)
    (hops : TailPuts tail ops) (hreply : TailReply tail reply) (s : KVStore) (out : Bytes) :
    Leads KVStore.step handleClientTurn
      (fun _ => Leaves s.view frames tail ops reply out)
      handleClientTurn (frames.flatMap Frame.bytes ++ tail) s out := by
  induction frames generalizing s out with
  | nil =>
      -- the tail is a rejected request, or it is cut
      apply Ends.leads
      by_cases hrejected : RejectedTail tail
      · obtain ⟨f, hf, rest, rfl⟩ := hrejected
        apply (ends_rejectedTail hf rest).mono
        rintro a input' s' out' ⟨rfl, rfl, rfl, rfl⟩
        refine .done ⟨?_, ?_, ?_⟩
        · rw [hops.eq_nil_of_rejected hf (List.prefix_append _ _)]
          rfl
        · rw [hreply.eq_reject (Or.inl ⟨f, hf, List.prefix_append _ _⟩)]
          rfl
        · intro _ _
          exact ⟨f, hf, rfl⟩
      · have hincomplete : ∀ f : Frame, f.request.Valid → ¬ f.bytes <+: tail := by
          intro f hf hprefix
          cases hr : f.request.rejected with
          | true => exact hrejected ⟨f, ⟨hf, hr⟩, hprefix⟩
          | false => exact hended f ⟨hf, hr⟩ hprefix
        apply (ends_cutTail hincomplete hops hreply).mono
        rintro a input' s' out' ⟨⟨b, rfl⟩, rfl, rfl⟩
        refine .done ⟨?_, rfl, ?_⟩
        · rw [← store_views.after_eq]
          rfl
        · intro _ hrejected'
          exact absurd hrejected' hrejected
  | cons f frames ih =>
      obtain ⟨hvalid, hkept⟩ := haccepted f List.mem_cons_self
      have ih := ih fun f' hf' => haccepted f' (List.mem_cons_of_mem _ hf')
      have hends : Ends KVStore.step _ handleClientTurn
          (f.bytes ++ (frames.flatMap Frame.bytes ++ tail)) s (out ++ []) :=
        (serves_frame hvalid).ends _ out
      rw [List.append_nil] at hends
      rw [List.flatMap_cons, List.append_assoc]
      apply Ends.leads
      apply hends.mono
      rintro a input' s' out' ⟨t, ⟨hinput, htodo, _, hout, hkeeps⟩, rfl, rfl, hdid, hafter⟩
      rw [htodo, trace, List.append_nil, List.nil_append] at hdid
      rw [htodo, after_nil] at hafter
      have hacts : t.did = f.request.acts s.view := by
        rw [hdid, Request.acts, store_views.trace_eq]
      have hview : s'.view = after PlainMap.step s.view f.request.items := by
        rw [hafter, store_views.after_eq]
      have hkeep : f.request.keeps t.did = f.request.fits (f.request.acts s.view) := by
        rw [Request.keeps, hkept, Bool.not_false, Bool.and_true, hacts]
      rw [hkeep] at hkeeps
      rw [hinput, hout, hacts]
      cases hfits : f.request.fits (f.request.acts s.view) with
      | true =>
          rw [hfits, if_pos rfl] at hkeeps
          rw [hkeeps]
          refine .again ((ih s' _).mono ?_)
          rintro b input'' s'' out'' hleaves
          rw [hview] at hleaves
          exact hleaves.again hfits
      | false =>
          rw [hfits, if_neg Bool.false_ne_true] at hkeeps
          rw [hkeeps]
          exact .done (.closed hfits hview)

/-- Every byte string splits into complete requests and a tail. -/
theorem exists_split (input : Bytes) : ∃ frames tail, Split input frames tail := by
  generalize hn : input.length = n
  induction n using Nat.strong_induction_on generalizing input with
  | _ n ih =>
      by_cases hcomplete : ∃ f : Frame, f.Accepted ∧ f.bytes <+: input
      · obtain ⟨f, hf, rest, rfl⟩ := hcomplete
        have hlen : rest.length < n := by
          have hhead := Frame.length_head hf.1
          rw [← hn, List.length_append, Frame.bytes, List.length_append, hhead, kRequestHeaderLength]
          omega
        obtain ⟨frames, tail, hsplit⟩ := ih _ hlen rest rfl
        refine ⟨f :: frames, tail, ?_, ?_, hsplit.ended⟩
        · rw [List.flatMap_cons, List.append_assoc, ← hsplit.input_eq]
        · intro f' hf'
          rcases List.mem_cons.mp hf' with rfl | hf'
          · exact hf
          · exact hsplit.accepted f' hf'
      · refine ⟨[], input, rfl, fun f hf => absurd hf List.not_mem_nil, ?_⟩
        intro f hf hprefix
        exact hcomplete ⟨f, hf, hprefix⟩

theorem exists_tailPuts (tail : Bytes) : ∃ ops, TailPuts tail ops := by
  by_cases h : ∃ type items, CutBatch tail type items
  · obtain ⟨type, items, hcut⟩ := h
    exact ⟨_, Or.inl ⟨type, items, hcut, rfl⟩⟩
  · exact ⟨[], Or.inr ⟨h, rfl⟩⟩

theorem exists_tailReply (tail : Bytes) : ∃ reply, TailReply tail reply := by
  by_cases h : RejectedTail tail ∨ CutCount tail
  · exact ⟨_, Or.inl ⟨h, rfl⟩⟩
  · exact ⟨[], Or.inr ⟨h, rfl⟩⟩

/-- `HandleClient` on a new connection whose client sends `input`. -/
def connectionRun (store : KVStore) (input : Bytes) : Run StoreOp StoreOp.Res KVStore Bool :=
  ⟨handleClientTurn, input, store, []⟩

/-- Every byte string splits, and however it is cut into pieces, `HandleClient` ends and leaves
what the split says: the store and the bytes sent depend on the string only. -/
theorem stream_served (store : KVStore) (input : Bytes) :
    (∃ frames tail ops reply, Split input frames tail ∧ TailPuts tail ops ∧ TailReply tail reply) ∧
    ∀ frames tail ops reply, Split input frames tail → TailPuts tail ops → TailReply tail reply →
      Acc (fun r' r => Run.Step KVStore.step handleClientTurn r r') (connectionRun store input) ∧
      ∀ r, Run.Reaches KVStore.step handleClientTurn (connectionRun store input) r →
        ((∃ r', Run.Step KVStore.step handleClientTurn r r') ∨ ∃ b, r.code = .ret (some b)) ∧
        ∀ b, r.code = .ret (some b) →
          Leaves store.view frames tail ops reply [] r.input r.state r.out := by
  refine ⟨?_, ?_⟩
  · obtain ⟨frames, tail, hsplit⟩ := exists_split input
    obtain ⟨ops, hops⟩ := exists_tailPuts tail
    obtain ⟨reply, hreply⟩ := exists_tailReply tail
    exact ⟨frames, tail, ops, reply, hsplit, hops, hreply⟩
  · rintro frames tail ops reply ⟨rfl, haccepted, hended⟩ hops hreply
    exact leads_spec (leads_of_split haccepted hended hops hreply store [])

/-! ## A response that is too long -/

/-- A key, looked up twice in one batch. -/
def someKey : Key := Key.ofBytes []

/-- A value of half the limit, asked for twice, does not fit a response. -/
theorem batchGet_twice_not_fits {value : Bytes} (h : 2 ^ 31 ≤ value.length) :
    (Request.batchGet 0 [someKey, someKey]).fits ((Request.batchGet 0 [someKey, someKey]).acts
      (PlainMap.empty.put 0 someKey value)) = false := by
  have hget : PlainMap.empty.put 0 someKey value (0, someKey) = some value :=
    Function.update_self _ _ _
  have hacts : (Request.batchGet 0 [someKey, someKey]).acts (PlainMap.empty.put 0 someKey value) =
      [⟨.get 0 someKey, some value⟩, ⟨.get 0 someKey, some value⟩] := by
    rw [← hget]
    rfl
  have hlength : (valueItem (some value)).length = 1 + (4 + value.length) := by
    rw [valueItem, List.length_cons, List.length_append, LittleEndian.length_bytes, Nat.add_comm]
  unfold Request.fits
  rw [hacts]
  apply decide_eq_false
  show ¬ (LittleEndian.bytes 4 2 ++ (valueItem (some value) ++ (valueItem (some value) ++ []))).length
    < 2 ^ 32
  rw [List.length_append, List.length_append, List.length_append, hlength]
  omega

/-- A large value, looked up twice in one batch, and a `Put` after it. -/
def longResponse : List Frame :=
  [⟨.put 0 someKey (List.replicate (2 ^ 31) 0), (0, 0)⟩,
    ⟨.batchGet 0 [someKey, someKey], (0, 0)⟩, ⟨.put 1 someKey [], (0, 0)⟩]

theorem longResponse_accepted : ∀ f ∈ longResponse, f.Accepted := by
  intro f hf
  unfold longResponse at hf
  simp only [List.mem_cons, List.not_mem_nil, or_false] at hf
  rcases hf with rfl | rfl | rfl
  · refine ⟨?_, rfl⟩
    show (List.replicate (2 ^ 31) (0 : UInt8)).length < 2 ^ 32
    rw [List.length_replicate]
    decide
  · refine ⟨?_, rfl⟩
    show 2 ≤ kMaxBatchCount
    decide
  · refine ⟨?_, rfl⟩
    show ([] : Bytes).length < 2 ^ 32
    decide

/-- The last request is not served. -/
theorem served_long_response {value : Bytes} (hlong : 2 ^ 31 ≤ value.length) :
    served PlainMap.empty [⟨.put 0 someKey value, (0, 0)⟩,
      ⟨.batchGet 0 [someKey, someKey], (0, 0)⟩, ⟨.put 1 someKey [], (0, 0)⟩] =
      [⟨.put 0 someKey value, (0, 0)⟩, ⟨.batchGet 0 [someKey, someKey], (0, 0)⟩] := by
  have hfirst : (Request.put 0 someKey value).fits
      ((Request.put 0 someKey value).acts PlainMap.empty) = true := rfl
  rw [served, if_pos hfirst, served]
  show _ :: _ :: (if (Request.batchGet 0 [someKey, someKey]).fits ((Request.batchGet 0
    [someKey, someKey]).acts (PlainMap.empty.put 0 someKey value)) = true then _ else _) = _
  rw [batchGet_twice_not_fits hlong, if_neg Bool.false_ne_true]

/-- All three requests are completely received and none is rejected, but the last one does not
change the store: the response to the second is too long to be announced, and the
connection is closed. -/
theorem long_response_closes :
    Split (longResponse.flatMap Frame.bytes) longResponse [] ∧ TailPuts [] [] ∧
    ¬ RejectedTail [] ∧
    ∃ r b, Run.Reaches KVStore.step handleClientTurn
        (connectionRun KVStore.empty (longResponse.flatMap Frame.bytes)) r ∧
      r.code = .ret (some b) ∧
      r.state.view ≠ after PlainMap.step PlainMap.empty (itemsOf longResponse) := by
  have hshort (f : Frame) (hf : f.request.Valid) : ¬ f.bytes <+: [] := by
    intro hprefix
    have hlen := hprefix.length_le
    rw [Frame.bytes, List.length_append, Frame.length_head hf, List.length_nil] at hlen
    exact absurd (Nat.le_of_add_right_le hlen) (by decide)
  have hlong : 2 ^ 31 ≤ (List.replicate (2 ^ 31) (0 : UInt8)).length := List.length_replicate.ge
  have hended (f : Frame) (hf : f.Accepted) : ¬ f.bytes <+: [] := hshort f hf.1
  have hrejected : ¬ RejectedTail [] := fun ⟨f, hf, hprefix⟩ => hshort f hf.1 hprefix
  have hputs : TailPuts [] [] := by
    refine Or.inr ⟨?_, rfl⟩
    rintro ⟨type, items, reserved, count, more, htail, _⟩
    cases htail
  have hreply : TailReply [] [] := by
    refine Or.inr ⟨not_or.mpr ⟨hrejected, ?_⟩, rfl⟩
    rintro ⟨command, type, reserved, part, _, htail, _⟩
    cases htail
  refine ⟨⟨(List.append_nil _).symm, longResponse_accepted, hended⟩, hputs, hrejected, ?_⟩
  obtain ⟨r, b, hreaches, hcode, hview, _⟩ :=
    (leads_of_split longResponse_accepted hended hputs hreply KVStore.empty []).reaches_end
      (r := connectionRun KVStore.empty (longResponse.flatMap Frame.bytes ++ []))
  rw [List.append_nil] at hreaches
  refine ⟨r, b, hreaches, hcode, ?_⟩
  rw [KVStore.view_empty] at hview
  unfold longResponse at hview ⊢
  generalize List.replicate (2 ^ 31) (0 : UInt8) = value at hlong hview ⊢
  -- the two stores differ where the last request would have put its value
  rw [served_long_response hlong, ite_self, List.append_nil] at hview
  intro heq
  have hat := congrFun (hview.symm.trans heq) (1, someKey)
  have hbefore : after PlainMap.step PlainMap.empty (itemsOf [⟨.put 0 someKey value, (0, 0)⟩,
      ⟨.batchGet 0 [someKey, someKey], (0, 0)⟩]) (1, someKey) = none := by
    apply PlainMap.after_of_not_writes
    intro o ho
    have hcases : o ∈ [StoreOp.put 0 someKey value, .get 0 someKey, .get 0 someKey] := ho
    simp only [List.mem_cons, List.not_mem_nil, or_false] at hcases
    rcases hcases with rfl | rfl | rfl
    · exact fun h => absurd (congrArg Prod.fst h) (by decide)
    · exact id
    · exact id
  have hafter : after PlainMap.step PlainMap.empty (itemsOf [⟨.put 0 someKey value, (0, 0)⟩,
      ⟨.batchGet 0 [someKey, someKey], (0, 0)⟩, ⟨.put 1 someKey [], (0, 0)⟩]) (1, someKey) =
      some [] := by
    show ((PlainMap.empty.put 0 someKey value).put 1 someKey []) (1, someKey) = some []
    exact Function.update_self _ _ _
  rw [hbefore, hafter] at hat
  cases hat

end AsuAscend.MicroKV
