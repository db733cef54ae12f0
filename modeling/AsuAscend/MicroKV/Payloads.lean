/-
The payloads of the batch answers: a count, and one item for each key.

An item of a `BatchGet` payload is a flag byte, a 4-byte length and that many bytes; an
item of a `BatchExists` payload is a flag byte. The parsers of the client accept these
byte strings and no others. They take the flag for `present` when it is not 0 and drop the
bytes of an absent value, so that they accept more than the server builds.
-/
import AsuAscend.MicroKV.Wire
import AsuAscend.MicroKV.Client

set_option autoImplicit false

namespace AsuAscend.MicroKV

/-! ## What the server builds -/

/-- The payload of `BatchGet` for the values of its keys. -/
def batchGetPayload (values : List (Option Bytes)) : Bytes :=
  values.foldl appendValue (appendLe32 [] (UInt32.ofNat values.length))

/-- The payload of `BatchExists`. -/
def batchExistsPayload (found : List Bool) : Bytes :=
  found.foldl (fun payload exists_ => payload ++ [flagByte exists_])
    (appendLe32 [] (UInt32.ofNat found.length))

/-- The payload as its fields: the count and the items. -/
theorem batchGetPayload_eq (values : List (Option Bytes)) :
    batchGetPayload values = LittleEndian.bytes 4 values.length ++ values.flatMap valueItem := by
  have hfold : ∀ payload, values.foldl appendValue payload = payload ++ values.flatMap valueItem := by
    induction values with
    | nil => simp
    | cons value values ih => simp [ih, appendValue_eq]
  rw [batchGetPayload, hfold, appendLe32, storeLe32_ofNat, List.nil_append]

theorem batchExistsPayload_eq (found : List Bool) :
    batchExistsPayload found = LittleEndian.bytes 4 found.length ++ found.map flagByte := by
  have hfold : ∀ payload, found.foldl (fun payload exists_ => payload ++ [flagByte exists_]) payload =
      payload ++ found.map flagByte := by
    induction found with
    | nil => simp
    | cons exists_ found ih => simp [ih]
  rw [batchExistsPayload, hfold, appendLe32, storeLe32_ofNat, List.nil_append]

/-- These are the payloads that the server answers with. -/
theorem batchGet_payload (type : UInt8) (keys : List Key) {did : List Act}
    (hdid : did.map Sigma.fst = (Request.batchGet type keys).items) :
    (Request.batchGet type keys).answer did = (.ok, batchGetPayload (did.map Act.value)) := by
  have hlen : did.length = keys.length := by
    have h := congrArg List.length hdid
    rwa [List.length_map, Request.items, List.length_map] at h
  rw [batchGetPayload_eq, List.length_map, hlen, List.flatMap_map]
  rfl

/-- The same for `BatchExists`. -/
theorem batchExists_payload (type : UInt8) (keys : List Key) {did : List Act}
    (hdid : did.map Sigma.fst = (Request.batchExists type keys).items) :
    (Request.batchExists type keys).answer did = (.ok, batchExistsPayload (did.map Act.found)) := by
  have hlen : did.length = keys.length := by
    have h := congrArg List.length hdid
    rwa [List.length_map, Request.items, List.length_map] at h
  rw [batchExistsPayload_eq, List.length_map, hlen, List.map_map]
  rfl

/-! ## The reads that stay inside

A read of the client fails past the end of the payload and nowhere else. -/

/-- `payload[i]` inside the payload. -/
theorem itemAt_ok {payload : Bytes} {i : ℕ} (h : i < payload.length) :
    itemAt payload i = .ok (payload.getD i 0) := by
  unfold itemAt
  rw [List.getD_eq_getElem?_getD, List.getElem?_eq_getElem h]
  rfl

/-- `unpack_from` with four bytes left. -/
theorem unpackFrom_ok {payload : Bytes} {offset : ℕ} (h : offset + 4 ≤ payload.length) :
    unpackFrom payload offset = .ok (unpackU32 payload offset) := if_pos h

/-- The flags of a `BatchExists` payload, read one by one. -/
theorem mapM_itemAt {payload : Bytes} {n : ℕ} (h : 4 + n ≤ payload.length) :
    ((List.range n).mapM fun i => do
        let flag ← itemAt payload (4 + i)
        return (flag ≠ 0 : Bool)) =
      Except.ok ((List.range n).map fun i => (payload.getD (4 + i) 0 ≠ 0 : Bool)) := by
  induction n with
  | zero => rfl
  | succ n ih =>
      rw [List.range_succ, List.mapM_append, ih (by omega), List.map_append]
      simp [itemAt_ok (show 4 + n < payload.length by omega)]
      rfl

/-! ## What the parsers accept -/

/-- An item of a `BatchGet` payload as it stands there. -/
structure RawItem where
  flag : UInt8
  value : Bytes
  fits : value.length < 2 ^ 32

namespace RawItem

def toBytes (item : RawItem) : Bytes :=
  item.flag :: (LittleEndian.bytes 4 item.value.length ++ item.value)

/-- What it stands for. -/
def decoded (item : RawItem) : Option Bytes := if item.flag ≠ 0 then some item.value else none

/-- An item is its flag, its length and its value. -/
theorem length_toBytes (item : RawItem) : item.toBytes.length = 1 + 4 + item.value.length := by
  simp [toBytes]
  omega

end RawItem

/-- The loop of `_parse_batch_get_payload` reads the items one by one. -/
theorem parseBatchGetItems_raw (pre post : Bytes) (items : List RawItem) (got : List (Option Bytes)) :
    parseBatchGetItems (pre ++ items.flatMap RawItem.toBytes ++ post) items.length pre.length got =
      .ok (got ++ items.map RawItem.decoded, (pre ++ items.flatMap RawItem.toBytes).length) := by
  induction items generalizing pre got with
  | nil =>
      simp only [List.flatMap_nil, List.map_nil, List.append_nil]
      rfl
  | cons item items ih =>
      -- the payload, cut at the item that is read next
      have hcut : pre ++ (item :: items).flatMap RawItem.toBytes ++ post = pre ++ item.flag ::
          (LittleEndian.bytes 4 item.value.length ++
            (item.value ++ (items.flatMap RawItem.toBytes ++ post))) := by
        simp [RawItem.toBytes]
      have hitem : pre ++ (item :: items).flatMap RawItem.toBytes =
          (pre ++ item.toBytes) ++ items.flatMap RawItem.toBytes := by
        rw [List.flatMap_cons, List.append_assoc]
      have hend : (pre ++ item.toBytes).length = pre.length + 1 + 4 + item.value.length := by
        rw [List.length_append, item.length_toBytes]
        omega
      have hlen : (pre ++ (item :: items).flatMap RawItem.toBytes ++ post).length =
          pre.length + 1 + 4 + item.value.length + (items.flatMap RawItem.toBytes).length +
            post.length := by
        rw [List.length_append, hitem, List.length_append, hend]
      have hflag : (pre ++ (item :: items).flatMap RawItem.toBytes ++ post).getD pre.length 0 =
          item.flag := by
        rw [hcut, List.getD_eq_getElem?_getD, List.getElem?_append_right (Nat.le_refl _),
          Nat.sub_self]
        rfl
      have hvalueLen : unpackU32 (pre ++ (item :: items).flatMap RawItem.toBytes ++ post)
          (pre.length + 1) = item.value.length := by
        unfold unpackU32
        rw [hcut, List.drop_length_add_append]
        exact LittleEndian.value_bytes_of_lt (w := 4) item.fits
      have hvalue : ((pre ++ (item :: items).flatMap RawItem.toBytes ++ post).drop
          (pre.length + 1 + 4)).take item.value.length = item.value := by
        rw [hcut, Nat.add_assoc, List.drop_length_add_append]
        exact List.take_left
      rw [List.length_cons, parseBatchGetItems, if_neg (by rw [hlen]; omega),
        itemAt_ok (by rw [hlen]; omega), unpackFrom_ok (by rw [hlen]; omega), hvalueLen]
      dsimp only [bind, Except.bind]
      rw [if_neg (by rw [hlen]; omega), hvalue, hflag, hitem, ← hend, ih (pre ++ item.toBytes),
        List.append_assoc, List.singleton_append]
      rfl

/-- What the loop has read when it comes to an end, and how it ends otherwise. -/
def ItemsRead (payload : Bytes) (count offset : ℕ) (got : List (Option Bytes)) :
    Except ClientError (List (Option Bytes) × ℕ) → Prop
  | .error e => ∃ message, e = .protocolError message
  | .ok (values, stop) => ∃ items : List RawItem, items.length = count ∧
      values = got ++ items.map RawItem.decoded ∧ stop ≤ payload.length ∧
      payload.take stop = payload.take offset ++ items.flatMap RawItem.toBytes

/-- One item, from where it begins. -/
theorem take_item {payload : Bytes} {offset : ℕ} (hheader : offset + 5 ≤ payload.length)
    (hvalue : offset + 1 + 4 + unpackU32 payload (offset + 1) ≤ payload.length) :
    ∃ item : RawItem, item.flag = payload.getD offset 0 ∧
      item.value = (payload.drop (offset + 1 + 4)).take (unpackU32 payload (offset + 1)) ∧
      payload.take (offset + 1 + 4 + unpackU32 payload (offset + 1)) =
        payload.take offset ++ item.toBytes := by
  have hfield : ((payload.drop (offset + 1)).take 4).length = 4 := by
    rw [List.length_take, List.length_drop]
    omega
  have hlt := LittleEndian.value_lt ((payload.drop (offset + 1)).take 4)
  have hbytes := LittleEndian.bytes_value ((payload.drop (offset + 1)).take 4)
  rw [hfield] at hlt hbytes
  have hlen : ((payload.drop (offset + 1 + 4)).take (unpackU32 payload (offset + 1))).length =
      unpackU32 payload (offset + 1) := by
    rw [List.length_take, List.length_drop]
    omega
  have hflag : (payload.drop offset).take 1 = [payload.getD offset 0] := by
    rw [List.getD_eq_getElem?_getD, List.getElem?_eq_getElem (by omega),
      List.drop_eq_getElem_cons (by omega)]
    rfl
  refine ⟨⟨payload.getD offset 0, _, by rw [hlen]; exact hlt⟩, rfl, rfl, ?_⟩
  unfold RawItem.toBytes
  dsimp only
  rw [hlen, List.take_add, List.take_add, List.take_add, hflag]
  simp only [List.append_assoc, List.singleton_append]
  unfold unpackU32
  rw [hbytes, List.cons_append]

/-- **The loop of `_parse_batch_get_payload`** on any bytes: it raises `ProtocolError`, or has
read so many items and stops behind them. -/
theorem parseBatchGetItems_read (payload : Bytes) (count : ℕ) {offset : ℕ}
    (hoffset : offset ≤ payload.length) (got : List (Option Bytes)) :
    ItemsRead payload count offset got (parseBatchGetItems payload count offset got) := by
  induction count generalizing offset got with
  | zero => exact ⟨[], rfl, by simp, hoffset, by simp⟩
  -- the next item: its flag and length, and then its value
  | succ count ih =>
      unfold parseBatchGetItems
      by_cases hheader : offset + 5 > payload.length
      -- five bytes are not left for them
      · rw [if_pos hheader]
        exact ⟨_, rfl⟩
      · rw [if_neg hheader, itemAt_ok (by omega), unpackFrom_ok (by omega)]
        dsimp only [bind, Except.bind]
        by_cases hvalue : offset + 1 + 4 + unpackU32 payload (offset + 1) > payload.length
        -- the value is longer than what is left
        · rw [if_pos hvalue]
          exact ⟨_, rfl⟩
        · rw [if_neg hvalue]
          -- the bytes up to here are those of an item
          obtain ⟨item, hflag, hval, htake⟩ := take_item (by omega) (Nat.le_of_not_lt hvalue)
          have hrest := ih (Nat.le_of_not_lt hvalue)
            (got ++ [if payload.getD offset 0 ≠ 0 then
              some ((payload.drop (offset + 1 + 4)).take (unpackU32 payload (offset + 1))) else none])
          cases hparse : parseBatchGetItems payload count
              (offset + 1 + 4 + unpackU32 payload (offset + 1))
              (got ++ [if payload.getD offset 0 ≠ 0 then
                some ((payload.drop (offset + 1 + 4)).take (unpackU32 payload (offset + 1)))
              else none]) with
          | error e =>
              rw [hparse] at hrest
              exact hrest
          | ok r =>
              rw [hparse] at hrest
              obtain ⟨items, hlen, hvalues, hstop, hall⟩ := hrest
              -- and the others are those of the items behind it
              refine ⟨item :: items, by rw [List.length_cons, hlen], ?_, hstop, ?_⟩
              · rw [hvalues, List.append_assoc, List.map_cons, RawItem.decoded, hflag, hval]
                rfl
              · rw [hall, htake, List.flatMap_cons, List.append_assoc]

/-- A count and that many items. -/
def BatchGetFormat (payload : Bytes) (values : List (Option Bytes)) : Prop :=
  ∃ items : List RawItem, items.length < 2 ^ 32 ∧
    payload = LittleEndian.bytes 4 items.length ++ items.flatMap RawItem.toBytes ∧
    values = items.map RawItem.decoded

/-- A count and that many flags. -/
def BatchExistsFormat (payload : Bytes) (found : List Bool) : Prop :=
  ∃ flags : Bytes, flags.length < 2 ^ 32 ∧
    payload = LittleEndian.bytes 4 flags.length ++ flags ∧
    found = flags.map fun b => decide (b ≠ 0)

/-- The first four bytes, as a number and back. -/
theorem unpackU32_zero {payload : Bytes} (h : 4 ≤ payload.length) :
    unpackU32 payload 0 < 2 ^ 32 ∧ payload.take 4 = LittleEndian.bytes 4 (unpackU32 payload 0) := by
  have hlen : ((payload.drop 0).take 4).length = 4 := by
    rw [List.length_take, List.length_drop]
    omega
  have hlt := LittleEndian.value_lt ((payload.drop 0).take 4)
  have hbytes := LittleEndian.bytes_value ((payload.drop 0).take 4)
  rw [hlen] at hlt hbytes
  exact ⟨hlt, hbytes.symm⟩

/-- The count of a payload that begins with one. -/
theorem unpackU32_append {n : ℕ} (h : n < 2 ^ 32) (rest : Bytes) :
    unpackU32 (LittleEndian.bytes 4 n ++ rest) 0 = n := LittleEndian.value_bytes_of_lt (w := 4) h

theorem BatchGetFormat.parse {payload : Bytes} {values : List (Option Bytes)}
    (h : BatchGetFormat payload values) : parseBatchGetPayload payload = .ok values := by
  obtain ⟨items, hcount, rfl, rfl⟩ := h
  have hitems := parseBatchGetItems_raw (LittleEndian.bytes 4 items.length) [] items []
  rw [List.append_nil, LittleEndian.length_bytes, List.nil_append] at hitems
  unfold parseBatchGetPayload
  have hfour : 4 ≤ (LittleEndian.bytes 4 items.length ++ items.flatMap RawItem.toBytes).length := by
    rw [List.length_append, LittleEndian.length_bytes]
    omega
  rw [if_neg (Nat.not_lt.mpr hfour), unpackFrom_ok (by rwa [Nat.zero_add]), unpackU32_append hcount]
  dsimp only [bind, Except.bind]
  rw [hitems]
  exact if_neg (not_not_intro rfl)

/-- The values of a payload that the server built, as its items. -/
theorem exists_rawItems {values : List (Option Bytes)}
    (h : ∀ value, some value ∈ values → value.length < 2 ^ 32) :
    ∃ items : List RawItem, items.flatMap RawItem.toBytes = values.flatMap valueItem ∧
      items.map RawItem.decoded = values := by
  induction values with
  | nil => exact ⟨[], rfl, rfl⟩
  | cons value values ih =>
      obtain ⟨items, hbytes, hdecoded⟩ := ih fun v hv => h v (List.mem_cons_of_mem _ hv)
      cases value with
      | none => exact ⟨⟨0, [], by decide⟩ :: items, by simp [hbytes, RawItem.toBytes, valueItem],
          by simp [hdecoded, RawItem.decoded]⟩
      | some value => exact ⟨⟨1, value, h value List.mem_cons_self⟩ :: items,
          by simp [hbytes, RawItem.toBytes, valueItem], by simp [hdecoded, RawItem.decoded]⟩

theorem parseBatchGetPayload_ok {values : List (Option Bytes)} (hcount : values.length < 2 ^ 32)
    (hvalues : ∀ value, some value ∈ values → value.length < 2 ^ 32) :
    parseBatchGetPayload (LittleEndian.bytes 4 values.length ++ values.flatMap valueItem) =
      .ok values := by
  obtain ⟨items, hbytes, hdecoded⟩ := exists_rawItems hvalues
  have hlen : items.length = values.length := by rw [← hdecoded, List.length_map]
  apply BatchGetFormat.parse
  exact ⟨items, hlen ▸ hcount, by rw [hlen, hbytes], hdecoded.symm⟩

/-- The parser of `BatchGet` payloads accepts the format and raises `ProtocolError` otherwise. -/
theorem parseBatchGetPayload_cases (payload : Bytes) :
    (∃ message, parseBatchGetPayload payload = .error (.protocolError message)) ∨
      ∃ values, parseBatchGetPayload payload = .ok values ∧
        values.length = unpackU32 payload 0 ∧ BatchGetFormat payload values := by
  unfold parseBatchGetPayload
  -- no count: `ProtocolError`
  by_cases hshort : payload.length < 4
  · rw [if_pos hshort]
    exact Or.inl ⟨_, rfl⟩
  -- otherwise the count is read, and then the loop
  · rw [if_neg hshort, unpackFrom_ok (by omega)]
    dsimp only [bind, Except.bind]
    obtain ⟨hcount, hfour⟩ := unpackU32_zero (Nat.le_of_not_lt hshort)
    have hread := parseBatchGetItems_read payload (unpackU32 payload 0) (Nat.le_of_not_lt hshort) []
    cases hparse : parseBatchGetItems payload (unpackU32 payload 0) 4 [] with
    | error e =>
        rw [hparse] at hread
        obtain ⟨message, rfl⟩ := hread
        exact Or.inl ⟨message, rfl⟩
    | ok r =>
        rw [hparse] at hread
        obtain ⟨values, stop⟩ := r
        obtain ⟨items, hlen, hvalues, -, hall⟩ := hread
        rw [List.nil_append] at hvalues
        dsimp only [bind, Except.bind]
        -- bytes are left over behind the last item
        by_cases hend : stop ≠ payload.length
        · rw [if_pos hend]
          exact Or.inl ⟨_, rfl⟩
        · rw [if_neg hend]
          have hstop : stop = payload.length := of_not_not hend
          rw [hstop, List.take_length, hfour, ← hlen] at hall
          refine Or.inr ⟨values, rfl, ?_, items, hlen ▸ hcount, hall, hvalues⟩
          rw [hvalues, List.length_map, hlen]

/-- The flags of a payload in the format are read one by one. -/
theorem BatchExistsFormat.parse {payload : Bytes} {found : List Bool}
    (h : BatchExistsFormat payload found) : parseBatchExistsPayload payload = .ok found := by
  obtain ⟨flags, hcount, rfl, rfl⟩ := h
  have hlen : (LittleEndian.bytes 4 flags.length ++ flags).length = 4 + flags.length := by
    rw [List.length_append, LittleEndian.length_bytes]
  unfold parseBatchExistsPayload
  rw [if_neg (by rw [hlen]; omega), unpackFrom_ok (by rw [hlen]; omega), unpackU32_append hcount]
  refine (if_neg (not_not_intro hlen)).trans ((mapM_itemAt hlen.ge).trans ?_)
  congr 1
  apply List.ext_getElem
  · rw [List.length_map, List.length_map, List.length_range]
  · intro i hi hi'
    rw [List.length_map] at hi'
    rw [List.getElem_map, List.getElem_range, List.getD_eq_getElem?_getD,
      List.getElem?_append_right (by rw [LittleEndian.length_bytes]; omega),
      LittleEndian.length_bytes, Nat.add_sub_cancel_left, List.getElem_map,
      List.getElem?_eq_getElem hi']
    rfl

/-- In particular those that the server has built. -/
theorem parseBatchExistsPayload_ok {found : List Bool} (hcount : found.length < 2 ^ 32) :
    parseBatchExistsPayload (LittleEndian.bytes 4 found.length ++ found.map flagByte) =
      .ok found := by
  have hflag : ∀ b : Bool, decide (flagByte b ≠ 0) = b := by decide
  apply BatchExistsFormat.parse
  refine ⟨found.map flagByte, by rwa [List.length_map], by rw [List.length_map], ?_⟩
  rw [List.map_map]
  exact (List.map_id'' hflag found).symm

/-- The same for `BatchExists`. -/
theorem parseBatchExistsPayload_cases (payload : Bytes) :
    (∃ message, parseBatchExistsPayload payload = .error (.protocolError message)) ∨
      ∃ found, parseBatchExistsPayload payload = .ok found ∧
        found.length = unpackU32 payload 0 ∧ BatchExistsFormat payload found := by
  by_cases hshort : payload.length < 4
  · exact Or.inl ⟨_, if_pos hshort⟩
  · obtain ⟨hcount, hfour⟩ := unpackU32_zero (Nat.le_of_not_lt hshort)
    by_cases hlen : payload.length = 4 + unpackU32 payload 0
    · have hflags : (payload.drop 4).length = unpackU32 payload 0 := by
        rw [List.length_drop]
        omega
      have hformat : BatchExistsFormat payload ((payload.drop 4).map fun b => decide (b ≠ 0)) := by
        refine ⟨payload.drop 4, hflags ▸ hcount, ?_, rfl⟩
        rw [hflags, ← hfour, List.take_append_drop]
      exact Or.inr ⟨_, hformat.parse, by rw [List.length_map, hflags], hformat⟩
    · unfold parseBatchExistsPayload
      rw [if_neg hshort, unpackFrom_ok (by omega)]
      exact Or.inl ⟨_, if_pos hlen⟩

/-- A value of a `BatchGet` payload is no longer than the payload. -/
theorem values_fit_payload {values : List (Option Bytes)} {n : ℕ}
    (h : (LittleEndian.bytes 4 values.length ++ values.flatMap valueItem).length < n) :
    ∀ value, some value ∈ values → value.length < n := by
  intro value hvalue
  obtain ⟨before, later, hsplit⟩ := List.append_of_mem hvalue
  have hitem : (valueItem (some value)).length = 1 + (4 + value.length) := by
    rw [valueItem, List.length_cons, List.length_append, LittleEndian.length_bytes, Nat.add_comm]
  have hflat : (values.flatMap valueItem).length = (before.flatMap valueItem).length +
      ((valueItem (some value)).length + (later.flatMap valueItem).length) := by
    rw [hsplit, List.flatMap_append, List.flatMap_cons, List.length_append, List.length_append]
  rw [List.length_append, hflat, hitem] at h
  omega

/-! ## The codec -/

/-- A payload of a batch answer and its parser. -/
structure Codec {α : Type} (build : List α → Bytes) (parse : Bytes → Except ClientError (List α))
    (Format : Bytes → List α → Prop) : Prop where
  round_trip : ∀ xs, (build xs).length < 2 ^ 32 → parse (build xs) = .ok xs
  /-- Any byte string: nothing is raised but `ProtocolError`. -/
  total : ∀ payload, (∃ message, parse payload = .error (.protocolError message)) ∨
    ∃ xs, parse payload = .ok xs ∧ xs.length = unpackU32 payload 0
  accepts : ∀ payload xs, parse payload = .ok xs ↔ Format payload xs

/-- A parser that raises only `ProtocolError`s and accepts only the format is total and exact. -/
theorem codec_of_cases {α : Type} {build : List α → Bytes}
    {parse : Bytes → Except ClientError (List α)} {Format : Bytes → List α → Prop}
    (htrip : ∀ xs, (build xs).length < 2 ^ 32 → parse (build xs) = .ok xs)
    (hformat : ∀ {payload xs}, Format payload xs → parse payload = .ok xs)
    (hcases : ∀ payload, (∃ message, parse payload = .error (.protocolError message)) ∨
      ∃ xs, parse payload = .ok xs ∧ xs.length = unpackU32 payload 0 ∧ Format payload xs) :
    Codec build parse Format := by
  refine ⟨htrip, fun payload => ?_, fun payload xs => ⟨fun h => ?_, hformat⟩⟩
  · rcases hcases payload with herror | ⟨xs, h, hlen, -⟩
    · exact Or.inl herror
    · exact Or.inr ⟨xs, h, hlen⟩
  · rcases hcases payload with ⟨message, h'⟩ | ⟨xs', h', -, hfmt⟩
    · rw [h] at h'
      cases h'
    · rw [h] at h'
      cases h'
      exact hfmt

/-- **The batch payloads.** What the server builds is read back, and any other byte string
is read as the format says or raises `ProtocolError`. -/
theorem batch_payload_codec :
    Codec batchGetPayload parseBatchGetPayload BatchGetFormat ∧
      Codec batchExistsPayload parseBatchExistsPayload BatchExistsFormat := by
  constructor
  · refine codec_of_cases ?_ BatchGetFormat.parse parseBatchGetPayload_cases
    intro values hlen
    rw [batchGetPayload_eq] at hlen ⊢
    have hcount : values.length < 2 ^ 32 := by
      have hle : values.length ≤ (values.flatMap valueItem).length := by
        clear hlen
        induction values with
        | nil => simp
        | cons value values ih =>
            have hitem : 1 ≤ (valueItem value).length := by cases value <;> simp [valueItem]
            rw [List.flatMap_cons, List.length_append, List.length_cons]
            omega
      rw [List.length_append] at hlen
      omega
    exact parseBatchGetPayload_ok hcount (values_fit_payload hlen)
  · refine codec_of_cases ?_ BatchExistsFormat.parse
      parseBatchExistsPayload_cases
    intro found hlen
    rw [batchExistsPayload_eq] at hlen ⊢
    rw [List.length_append, List.length_map] at hlen
    exact parseBatchExistsPayload_ok (by omega)

/-- An absent, an empty and a short value. -/
theorem batch_payload_codec_three :
    parseBatchGetPayload (batchGetPayload [none, some [], some [7]]) = .ok [none, some [], some [7]] :=
  batch_payload_codec.1.round_trip _ (by decide)

end AsuAscend.MicroKV
