/-
Records under the coordinates of their tokens.

`makeKey` packs a request, a layer, a token position and a cache type into the 32
bytes that the store knows. A `TokenCall` names its records by their coordinates;
`RecordMap` is what it should do. The bytes tell two coordinates apart unless the
halves of two digests collide (`makeKey_inj`), so a session of such calls returns
what the record map returns (`session_keeps_records`).

## Coordinates and bytes

A request is named by a number or by a string. The bytes of a number are the number itself; those
of a string come from a digest that is cut to the bytes of the field, so that two requests can get
the same bytes. `ToldApart` is the assumption that the coordinates in use do not do so. The other
fields have room for all their values, and `makeKey` refuses numbers that do not fit.
-/
import AsuAscend.MicroKV.Session
import AsuAscend.Lib.Sha256
import AsuAscend.Lib.RenamedMaps
import AsuAscend.Lib.StateExcept

set_option autoImplicit false

open StreamPrograms SequentialObject RankedRuns RenamedMaps StateExcept

namespace AsuAscend.MicroKV

/-! ## The key of a token -/

inductive ReqIndex
  | int (n : ℤ)
  | str (s : String)
deriving DecidableEq

def KV_ATTENTION_K : ℤ := 0

def validateU32 (name : String) (value : ℤ) : Except ClientError Unit :=
  if value < 0 ∨ value > 0xFFFFFFFF then
    throw (.valueError (name ++ " must fit uint32"))
  else
    return ()

/-- `req_bytes`: half of the digest of a name, or a number and zeros. -/
def reqBytes : ReqIndex → Except ClientError Bytes
  | .str s => return (Sha256.digest s.toUTF8.data.toList).take 16
  | .int n =>
      if n < 0 ∨ n > 0xFFFFFFFFFFFFFFFF then
        throw (.valueError "integer req_index must fit uint64")
      else
        return LittleEndian.bytes 8 n.toNat ++ List.replicate 8 0

def makeKey (reqIndex : ReqIndex) (layerId tokenPos cacheType : ℤ) : Except ClientError Bytes := do
  let req ← reqBytes reqIndex
  validateU32 "layer_id" layerId
  validateU32 "token_pos" tokenPos
  validateType cacheType
  return req ++ (LittleEndian.bytes 4 layerId.toNat ++ (LittleEndian.bytes 4 tokenPos.toNat ++
    (LittleEndian.bytes 1 cacheType.toNat ++ List.replicate 7 0)))

/-- The arguments of `make_key`. -/
structure Coordinates where
  reqIndex : ReqIndex
  layerId : ℤ
  tokenPos : ℤ
  cacheType : ℤ := KV_ATTENTION_K
deriving DecidableEq

def Coordinates.key (token : Coordinates) : Except ClientError Bytes :=
  makeKey token.reqIndex token.layerId token.tokenPos token.cacheType

/-- A call on records, before their keys are made. -/
inductive TokenCall
  | put (cacheType : ℤ) (token : Coordinates) (value : Bytes)
  | get (cacheType : ℤ) (token : Coordinates)
  | exists_ (cacheType : ℤ) (token : Coordinates)
  | batchPut (cacheType : ℤ) (tokens : List Coordinates) (values : List Bytes)
  | batchGet (cacheType : ℤ) (tokens : List Coordinates)
  | batchExists (cacheType : ℤ) (tokens : List Coordinates)
  | clear (cacheType : ℤ)
  | size (cacheType : ℤ)

namespace TokenCall

def tokens : TokenCall → List Coordinates
  | put _ token _ | get _ token | exists_ _ token => [token]
  | batchPut _ tokens _ | batchGet _ tokens | batchExists _ tokens => tokens
  | clear _ | size _ => []

/-- The call with the keys of its records. -/
def call : TokenCall → Except ClientError Call
  | put cacheType token value => do
      let key ← token.key
      return .put cacheType key value
  | get cacheType token => do
      let key ← token.key
      return .get cacheType key
  | exists_ cacheType token => do
      let key ← token.key
      return .exists_ cacheType key
  | batchPut cacheType tokens values => do
      let keys ← tokens.mapM Coordinates.key
      return .batchPut cacheType keys values
  | batchGet cacheType tokens => do
      let keys ← tokens.mapM Coordinates.key
      return .batchGet cacheType keys
  | batchExists cacheType tokens => do
      let keys ← tokens.mapM Coordinates.key
      return .batchExists cacheType keys
  | clear cacheType => return .clear cacheType
  | size cacheType => return .size cacheType

end TokenCall

/-- Records by the type they are stored under and their coordinates. -/
abbrev RecordMap := ℤ × Coordinates → Option Bytes

namespace RecordMap

def empty : RecordMap := fun _ => none

def put (m : RecordMap) (type : ℤ) (token : Coordinates) (value : Bytes) : RecordMap :=
  Function.update m (type, token) (some value)

def clear (m : RecordMap) (type : ℤ) : RecordMap := fun r => if r.1 = type then none else m r

/-- The tokens that have a record under one type. -/
def tokens (m : RecordMap) (type : ℤ) : Set Coordinates := { token | m (type, token) ≠ none }

noncomputable def call (m : RecordMap) : TokenCall → Outcome × RecordMap
  | .put cacheType token value => (.put true, m.put cacheType token value)
  | .get cacheType token => (.get (m (cacheType, token)), m)
  | .exists_ cacheType token => (.exists_ (m (cacheType, token)).isSome, m)
  | .batchPut cacheType tokens values =>
      (.batchPut true,
        (tokens.zip values).foldl (fun m item => m.put cacheType item.1 item.2) m)
  | .batchGet cacheType tokens => (.batchGet (tokens.map fun token => m (cacheType, token)), m)
  | .batchExists cacheType tokens =>
      (.batchExists (tokens.map fun token => (m (cacheType, token)).isSome), m)
  | .clear cacheType => (.clear, m.clear cacheType)
  | .size cacheType => (.size (m.tokens cacheType).ncard, m)

noncomputable def step (c : TokenCall) (m : RecordMap) : Outcome × RecordMap := m.call c

/-- The records after the calls. -/
noncomputable def run (calls : List TokenCall) : RecordMap := after step empty calls

noncomputable def outcomes (calls : List TokenCall) : List Outcome :=
  (trace step empty calls).map fun e => e.2

end RecordMap

/-! ## When a key is made, and what it is -/

/-- The coordinates that have a key. -/
structure Coordinates.InRange (token : Coordinates) : Prop where
  req : ∀ n, token.reqIndex = .int n → 0 ≤ n ∧ n ≤ 0xFFFFFFFFFFFFFFFF
  layerId : 0 ≤ token.layerId ∧ token.layerId ≤ 0xFFFFFFFF
  tokenPos : 0 ≤ token.tokenPos ∧ token.tokenPos ≤ 0xFFFFFFFF
  cacheType : 0 ≤ token.cacheType ∧ token.cacheType ≤ 0xFF

/-- A number passes if it fits 32 bits. -/
theorem validateU32_ok_iff {name : String} {value : ℤ} :
    validateU32 name value = .ok () ↔ 0 ≤ value ∧ value ≤ 0xFFFFFFFF := by
  unfold validateU32
  by_cases h : value < 0 ∨ value > 0xFFFFFFFF
  · rw [if_pos h]
    exact ⟨fun h' => (nomatch h'), fun h' => by omega⟩
  · rw [if_neg h]
    exact ⟨fun _ => by omega, fun _ => rfl⟩

/-- A type passes if it fits a byte. -/
theorem validateType_ok_iff {cacheType : ℤ} :
    validateType cacheType = .ok () ↔ 0 ≤ cacheType ∧ cacheType ≤ 0xFF := by
  constructor
  · intro h
    by_contra hrange
    rw [validateType, if_pos (by omega)] at h
    exact nomatch h
  · rintro ⟨h0, h1⟩
    exact validateType_ok h0 h1

/-- A request index takes 16 bytes, a number as well as a name. -/
theorem reqBytes_length {req : ReqIndex} {bytes : Bytes} (h : reqBytes req = .ok bytes) :
    bytes.length = 16 := by
  cases req with
  | str s =>
      cases h
      rw [List.length_take, Sha256.length_digest]
      rfl
  | int n =>
      by_cases hn : n < 0 ∨ n > 0xFFFFFFFFFFFFFFFF
      · rw [reqBytes, if_pos hn] at h
        exact nomatch h
      · rw [reqBytes, if_neg hn] at h
        cases h
        rw [List.length_append, LittleEndian.length_bytes, List.length_replicate]

/-- Only numbers can be out of range; every name has a digest. -/
theorem reqBytes_ok_iff {req : ReqIndex} :
    (∃ bytes, reqBytes req = .ok bytes) ↔ ∀ n, req = .int n → 0 ≤ n ∧ n ≤ 0xFFFFFFFFFFFFFFFF := by
  cases req with
  | str s => exact ⟨fun _ n h => (nomatch h), fun _ => ⟨_, rfl⟩⟩
  | int n =>
      constructor
      · rintro ⟨bytes, h⟩ n' hn'
        cases hn'
        by_contra hrange
        rw [reqBytes, if_pos (by omega)] at h
        exact nomatch h
      · intro h
        have hn := h n rfl
        exact ⟨_, if_neg (by omega)⟩

/-- What a key is made of. -/
theorem Coordinates.key_eq_ok {token : Coordinates} {key : Bytes} (h : token.key = .ok key) :
    token.InRange ∧ ∃ req, reqBytes token.reqIndex = .ok req ∧
      key = req ++ (LittleEndian.bytes 4 token.layerId.toNat ++
        (LittleEndian.bytes 4 token.tokenPos.toNat ++
          (LittleEndian.bytes 1 token.cacheType.toNat ++ List.replicate 7 0))) := by
  unfold Coordinates.key makeKey at h
  obtain ⟨req, hreq, h⟩ := except_bind_eq_ok h
  obtain ⟨_, hlayer, h⟩ := except_bind_eq_ok h
  obtain ⟨_, hpos, h⟩ := except_bind_eq_ok h
  obtain ⟨_, htype, h⟩ := except_bind_eq_ok h
  cases h
  exact ⟨⟨reqBytes_ok_iff.mp ⟨req, hreq⟩, validateU32_ok_iff.mp hlayer,
    validateU32_ok_iff.mp hpos, validateType_ok_iff.mp htype⟩, req, hreq, rfl⟩

/-- A token has a key if all of its coordinates are in range. -/
theorem Coordinates.key_ok_iff {token : Coordinates} :
    (∃ key, token.key = .ok key) ↔ token.InRange := by
  constructor
  · rintro ⟨key, h⟩
    exact (token.key_eq_ok h).1
  · intro h
    obtain ⟨req, hreq⟩ := reqBytes_ok_iff.mpr h.req
    unfold Coordinates.key makeKey
    rw [hreq, validateU32_ok_iff.mpr h.layerId, validateU32_ok_iff.mpr h.tokenPos,
      validateType_ok_iff.mpr h.cacheType]
    exact ⟨_, rfl⟩

/-- And then the key has the 32 bytes that the client asks for. -/
theorem Coordinates.length_key {token : Coordinates} {key : Bytes} (h : token.key = .ok key) :
    key.length = 32 := by
  obtain ⟨_, req, hreq, rfl⟩ := token.key_eq_ok h
  simp only [List.length_append, LittleEndian.length_bytes, List.length_replicate,
    reqBytes_length hreq]

/-- Numbers that fit their field are told apart by it. -/
theorem bytes_inj {w : ℕ} {a b : ℤ} (ha : 0 ≤ a) (hb : 0 ≤ b) (ha' : a < 256 ^ w)
    (hb' : b < 256 ^ w) (h : LittleEndian.bytes w a.toNat = LittleEndian.bytes w b.toNat) :
    a = b := by
  have hvalue := congrArg LittleEndian.value h
  have hlt : ∀ {n : ℤ}, n < 256 ^ w → 0 ≤ n → n.toNat < 256 ^ w := by
    intro n hn hn0
    rw [← Int.ofNat_lt, Int.toNat_of_nonneg hn0]
    exact_mod_cast hn
  rw [LittleEndian.value_bytes_of_lt (hlt ha' ha), LittleEndian.value_bytes_of_lt (hlt hb' hb)]
    at hvalue
  omega

/-- Two coordinates with the same key agree on everything but possibly the request, and the
requests have the same bytes. -/
theorem makeKey_inj {token token' : Coordinates} {key : Bytes} (h : token.key = .ok key)
    (h' : token'.key = .ok key) :
    reqBytes token.reqIndex = reqBytes token'.reqIndex ∧ token.layerId = token'.layerId ∧
      token.tokenPos = token'.tokenPos ∧ token.cacheType = token'.cacheType := by
  obtain ⟨hrange, req, hreq, hkey⟩ := token.key_eq_ok h
  obtain ⟨hrange', req', hreq', hkey'⟩ := token'.key_eq_ok h'
  rw [hkey] at hkey'
  -- the fields have fixed widths, so equal keys have equal fields
  obtain ⟨hreqs, hrest⟩ := List.append_inj hkey'
    (by rw [reqBytes_length hreq, reqBytes_length hreq'])
  obtain ⟨hlayer, hrest⟩ := List.append_inj hrest (by simp only [LittleEndian.length_bytes])
  obtain ⟨hpos, hrest⟩ := List.append_inj hrest (by simp only [LittleEndian.length_bytes])
  obtain ⟨htype, _⟩ := List.append_inj hrest (by simp only [LittleEndian.length_bytes])
  have hlayer0 := hrange.layerId
  have hlayer0' := hrange'.layerId
  have hpos0 := hrange.tokenPos
  have hpos0' := hrange'.tokenPos
  have htype0 := hrange.cacheType
  have htype0' := hrange'.cacheType
  refine ⟨by rw [hreq, hreq', hreqs], ?_, ?_, ?_⟩
  · exact bytes_inj hlayer0.1 hlayer0'.1 (by omega) (by omega) hlayer
  · exact bytes_inj hpos0.1 hpos0'.1 (by omega) (by omega) hpos
  · exact bytes_inj htype0.1 htype0'.1 (by omega) (by omega) htype

/-- Numbers never collide. -/
theorem reqBytes_int_inj {n n' : ℤ} {bytes : Bytes} (h : reqBytes (.int n) = .ok bytes)
    (h' : reqBytes (.int n') = .ok bytes) : n = n' := by
  have hn := reqBytes_ok_iff.mp ⟨bytes, h⟩ n rfl
  have hn' := reqBytes_ok_iff.mp ⟨bytes, h'⟩ n' rfl
  rw [reqBytes, if_neg (by omega)] at h h'
  have heq := Except.ok.inj (h.trans h'.symm)
  obtain ⟨hbytes, _⟩ := List.append_inj heq (by simp only [LittleEndian.length_bytes])
  exact bytes_inj hn.1 hn'.1 (by omega) (by omega) hbytes

/-! ## The store as a renamed record map -/

/-- The key of a token that has one. -/
def Coordinates.keyOf (token : Coordinates) : Key :=
  match token.key with
  | .ok key => Key.ofBytes key
  | .error _ => Key.ofBytes []

theorem Coordinates.keyOf_eq {token : Coordinates} {key : Bytes} (h : token.key = .ok key) :
    token.keyOf = Key.ofBytes key := by
  unfold keyOf
  rw [h]

theorem map_keyOf {tokens : List Coordinates} {keys : List Bytes}
    (h : tokens.mapM Coordinates.key = .ok keys) :
    tokens.map Coordinates.keyOf = keys.map Key.ofBytes := by
  rw [← List.forall₂_eq_eq_eq, List.forall₂_map_left_iff, List.forall₂_map_right_iff]
  exact (except_mapM_eq_ok h).imp fun token key hkey => token.keyOf_eq hkey

/-- Where the store keeps the record of a token. -/
def place (r : ℤ × Coordinates) : UInt8 × Key := (typeByte r.1, r.2.keyOf)

/-- The records that calls about some tokens can name. -/
def recordsOf (used : Set Coordinates) : Set (ℤ × Coordinates) :=
  { r | (0 ≤ r.1 ∧ r.1 ≤ 0xFF) ∧ r.2 ∈ used }

/-- No name shares its half of a digest with another request. -/
def ToldApart (used : Set Coordinates) : Prop :=
  ∀ token ∈ used, ∀ token' ∈ used, ∀ name, token.reqIndex = .str name →
    reqBytes (.str name) = reqBytes token'.reqIndex → token'.reqIndex = .str name

/-- Tokens that are told apart have places of their own in the store. -/
theorem place_injOn {used : Set Coordinates} (hrange : ∀ token ∈ used, token.InRange)
    (hapart : ToldApart used) : Set.InjOn place (recordsOf used) := by
  rintro ⟨type, token⟩ ⟨⟨h0, h1⟩, htoken⟩ ⟨type', token'⟩ ⟨⟨h0', h1'⟩, htoken'⟩ heq
  obtain ⟨htype, hkeys⟩ := Prod.mk.inj heq
  obtain ⟨key, hkey⟩ := Coordinates.key_ok_iff.mpr (hrange token htoken)
  obtain ⟨key', hkey'⟩ := Coordinates.key_ok_iff.mpr (hrange token' htoken')
  -- the padded forms are the keys themselves
  rw [Coordinates.keyOf_eq hkey, Coordinates.keyOf_eq hkey'] at hkeys
  have hsame := congrArg Key.toBytes hkeys
  rw [Key.toBytes_ofBytes (Coordinates.length_key hkey),
    Key.toBytes_ofBytes (Coordinates.length_key hkey')] at hsame
  rw [← hsame] at hkey'
  obtain ⟨hreq, hlayer, hpos, hcache⟩ := makeKey_inj hkey hkey'
  have hindex : token.reqIndex = token'.reqIndex := by
    cases hi : token.reqIndex with
    | str name =>
        rw [hi] at hreq
        exact (hapart token htoken token' htoken' name hi hreq).symm
    | int n =>
        cases hi' : token'.reqIndex with
        | str name =>
            rw [hi'] at hreq
            exact hi.symm.trans (hapart token' htoken' token htoken name hi' hreq.symm)
        | int n' =>
            obtain ⟨bytes, hbytes⟩ := reqBytes_ok_iff.mpr (hrange token htoken).req
            have hbytes' := hreq ▸ hbytes
            rw [hi] at hbytes
            rw [hi'] at hbytes'
            rw [reqBytes_int_inj hbytes hbytes']
  have htoken : token = token' := by
    cases token
    cases token'
    rw [Coordinates.mk.injEq]
    exact ⟨hindex, hlayer, hpos, hcache⟩
  exact Prod.ext (typeByte_inj h0 h1 h0' h1' htype) htoken

/-- The store holds the records, and nothing else. -/
abbrev Holds (used : Set Coordinates) : RecordMap → PlainMap → Prop :=
  Represents place (recordsOf used)

section Simulation

variable {used : Set Coordinates} {m : RecordMap} {p : PlainMap} {type : ℤ}

/-- A record that is put is found at its place, and nowhere else. -/
theorem Holds.put (h : Holds used m p) (hinj : Set.InjOn place (recordsOf used))
    (htype : 0 ≤ type ∧ type ≤ 0xFF) {token : Coordinates} (htoken : token ∈ used)
    (value : Bytes) :
    Holds used (m.put type token value) (p.put (typeByte type) token.keyOf value) :=
  h.update hinj ⟨htype, htoken⟩ (some value)

theorem Holds.putAll (hinj : Set.InjOn place (recordsOf used)) (htype : 0 ≤ type ∧ type ≤ 0xFF)
    {items : List (Coordinates × Bytes)} (hitems : ∀ item ∈ items, item.1 ∈ used)
    (h : Holds used m p) :
    Holds used (items.foldl (fun m item => m.put type item.1 item.2) m)
      (items.foldl (fun p item => p.put (typeByte type) item.1.keyOf item.2) p) := by
  induction items generalizing m p with
  | nil => exact h
  | cons item items ih =>
      have hitem := hitems item List.mem_cons_self
      exact ih (fun item' hitem' => hitems item' (List.mem_cons_of_mem _ hitem'))
        (h.put hinj htype hitem item.2)

/-- A clear takes all records of its type. -/
theorem Holds.clear (h : Holds used m p) (htype : 0 ≤ type ∧ type ≤ 0xFF) :
    Holds used (m.clear type) (p.clear (typeByte type)) := by
  apply h.erase
  rintro ⟨type', token⟩ ⟨⟨h0, h1⟩, _⟩
  exact ⟨typeByte_inj h0 h1 htype.1 htype.2, congrArg typeByte⟩

theorem Holds.get (h : Holds used m p) (htype : 0 ≤ type ∧ type ≤ 0xFF) {token : Coordinates}
    (htoken : token ∈ used) : p (typeByte type, token.keyOf) = m (type, token) :=
  Represents.get h (type, token) ⟨htype, htoken⟩

/-- The keys of a type are those of its records. -/
theorem Holds.keys_eq (h : Holds used m p) (htype : 0 ≤ type ∧ type ≤ 0xFF) :
    p.keys (typeByte type) = Coordinates.keyOf '' m.tokens type := by
  ext key
  show p (typeByte type, key) ≠ none ↔ _
  rw [h.stored_iff]
  constructor
  · rintro ⟨⟨type', token⟩, hm, hplace⟩
    obtain ⟨htypes, rfl⟩ := Prod.mk.inj hplace
    obtain ⟨⟨h0, h1⟩, _⟩ := h.only _ hm
    have htypes' : type' = type := typeByte_inj h0 h1 htype.1 htype.2 htypes
    rw [htypes'] at hm
    exact ⟨token, hm, rfl⟩
  · rintro ⟨token, hm, rfl⟩
    exact ⟨(type, token), hm, rfl⟩

theorem Holds.size_eq (h : Holds used m p) (hinj : Set.InjOn place (recordsOf used))
    (htype : 0 ≤ type ∧ type ≤ 0xFF) : p.size (typeByte type) = (m.tokens type).ncard := by
  unfold PlainMap.size
  rw [h.keys_eq htype]
  apply Set.InjOn.ncard_image
  intro token hm token' hm' hkeys
  have hplace : place (type, token) = place (type, token') := Prod.ext rfl hkeys
  exact (Prod.mk.inj (hinj (h.only _ hm) (h.only _ hm') hplace)).2

/-- A call with its keys made does to the store what it does to the records. -/
theorem Holds.call (h : Holds used m p) (hinj : Set.InjOn place (recordsOf used)) {c : TokenCall}
    {c' : Call} (hc : c.call = .ok c') (haccepted : c'.Accepted)
    (hused : ∀ token ∈ c.tokens, token ∈ used) :
    (p.call c').1 = (m.call c).1 ∧ Holds used (m.call c).2 (p.call c').2 := by
  obtain ⟨h0, h1, _, _⟩ := haccepted
  cases c with
  | put type token value =>
      obtain ⟨key, hkey, hc⟩ := except_bind_eq_ok hc
      cases hc
      have htoken := hused token List.mem_cons_self
      refine ⟨rfl, ?_⟩
      show Holds used _ (p.put (typeByte type) (Key.ofBytes key) value)
      rw [← token.keyOf_eq hkey]
      exact h.put hinj ⟨h0, h1⟩ htoken value
  | get type token =>
      obtain ⟨key, hkey, hc⟩ := except_bind_eq_ok hc
      cases hc
      have hrange : 0 ≤ type ∧ type ≤ 0xFF := ⟨h0, h1⟩
      refine ⟨?_, h⟩
      show Outcome.get (p (typeByte type, Key.ofBytes key)) = _
      rw [← token.keyOf_eq hkey, h.get hrange (hused token List.mem_cons_self)]
      rfl
  | exists_ type token =>
      obtain ⟨key, hkey, hc⟩ := except_bind_eq_ok hc
      cases hc
      have hrange : 0 ≤ type ∧ type ≤ 0xFF := ⟨h0, h1⟩
      refine ⟨?_, h⟩
      show Outcome.exists_ (p (typeByte type, Key.ofBytes key)).isSome = _
      rw [← token.keyOf_eq hkey, h.get hrange (hused token List.mem_cons_self)]
      rfl
  | batchPut type tokens values =>
      obtain ⟨keys, hkeys, hc⟩ := except_bind_eq_ok hc
      cases hc
      have hitems : ∀ item ∈ tokens.zip values, item.1 ∈ used :=
        fun item hitem => hused item.1 (List.of_mem_zip hitem).1
      refine ⟨rfl, ?_⟩
      -- the same loop, over the pairs of key and value
      have hloop : (keys.zip values).foldl
          (fun p item => p.put (typeByte type) (Key.ofBytes item.1) item.2) p =
          (tokens.zip values).foldl (fun p item => p.put (typeByte type) item.1.keyOf item.2) p := by
        have hzip : (keys.zip values).map (fun item => (Key.ofBytes item.1, item.2)) =
            (tokens.zip values).map fun item => (item.1.keyOf, item.2) := by
          have hl : (keys.map Key.ofBytes).zip values = _ := List.zip_map_left
          have hr : (tokens.map Coordinates.keyOf).zip values = _ := List.zip_map_left
          rw [map_keyOf hkeys] at hr
          exact hl.symm.trans hr
        have hfold := congrArg
          (List.foldl (fun (p : PlainMap) item => p.put (typeByte type) item.1 item.2) p) hzip
        rw [List.foldl_map, List.foldl_map] at hfold
        exact hfold
      show Holds used _ ((keys.zip values).foldl _ p)
      rw [hloop]
      exact Holds.putAll hinj ⟨h0, h1⟩ hitems h
  | batchGet type tokens =>
      obtain ⟨keys, hkeys, hc⟩ := except_bind_eq_ok hc
      cases hc
      refine ⟨?_, h⟩
      show Outcome.batchGet (keys.map ((fun key => p (typeByte type, key)) ∘ Key.ofBytes)) = _
      rw [← List.map_map, ← map_keyOf hkeys, List.map_map]
      refine congrArg Outcome.batchGet (List.map_congr_left fun token htoken => ?_)
      exact h.get ⟨h0, h1⟩ (hused token htoken)
  | batchExists type tokens =>
      obtain ⟨keys, hkeys, hc⟩ := except_bind_eq_ok hc
      cases hc
      refine ⟨?_, h⟩
      show Outcome.batchExists
        (keys.map ((fun key => (p (typeByte type, key)).isSome) ∘ Key.ofBytes)) = _
      rw [← List.map_map, ← map_keyOf hkeys, List.map_map]
      refine congrArg Outcome.batchExists (List.map_congr_left fun token htoken => ?_)
      exact congrArg Option.isSome (h.get ⟨h0, h1⟩ (hused token htoken))
  | clear type =>
      cases hc
      exact ⟨rfl, h.clear ⟨h0, h1⟩⟩
  | size type =>
      cases hc
      exact ⟨congrArg Outcome.size (h.size_eq hinj ⟨h0, h1⟩), h⟩

/-- A run of calls does to the store what it does to the records. -/
theorem Holds.run (hinj : Set.InjOn place (recordsOf used)) {calls : List TokenCall}
    {calls' : List Call} (hcalls : List.Forall₂ (fun c c' => c.call = .ok c') calls calls')
    (hused : ∀ c ∈ calls, ∀ token ∈ c.tokens, token ∈ used) (h : Holds used m p)
    (haccepted : ∀ c' ∈ calls', c'.Accepted) :
    ((trace PlainMap.serve p calls').map fun e => e.2.1) =
        ((trace RecordMap.step m calls).map fun e => e.2) ∧
      Holds used (after RecordMap.step m calls) (after PlainMap.serve p calls') := by
  induction hcalls generalizing m p with
  | nil => exact ⟨rfl, h⟩
  | cons hc _ ih =>
      obtain ⟨hout, hnext⟩ := h.call hinj hc (haccepted _ List.mem_cons_self)
        (hused _ List.mem_cons_self)
      obtain ⟨houts, hend⟩ := ih (fun c hmem => hused c (List.mem_cons_of_mem _ hmem)) hnext
        fun c' hmem => haccepted c' (List.mem_cons_of_mem _ hmem)
      refine ⟨?_, hend⟩
      rw [trace, trace, List.map_cons, List.map_cons]
      exact congrArg₂ List.cons hout houts

end Simulation

/-! ## End to end -/

/-- The tokens that some calls name. -/
def tokensOf (calls : List TokenCall) : Set Coordinates := { token | ∃ c ∈ calls, token ∈ c.tokens }

/-- Every token of a call whose keys are made has a key. -/
theorem TokenCall.inRange_of_call {c : TokenCall} {c' : Call} (hc : c.call = .ok c') :
    ∀ token ∈ c.tokens, token.InRange := by
  have hall : ∀ {tokens : List Coordinates} {keys : List Bytes},
      tokens.mapM Coordinates.key = .ok keys → ∀ token ∈ tokens, token.InRange := by
    intro tokens keys hkeys
    have hmade := except_mapM_eq_ok hkeys
    intro token htoken
    obtain ⟨i, hi, rfl⟩ := List.mem_iff_getElem.mp htoken
    exact Coordinates.key_ok_iff.mp ⟨_, hmade.get hi (hmade.length_eq ▸ hi)⟩
  cases c with
  | put _ _ _ | get _ _ | exists_ _ _ =>
      obtain ⟨key, hkey, _⟩ := except_bind_eq_ok hc
      intro token htoken
      rw [List.mem_singleton.mp htoken]
      exact Coordinates.key_ok_iff.mp ⟨key, hkey⟩
  | batchPut _ _ _ | batchGet _ _ | batchExists _ _ =>
      obtain ⟨keys, hkeys, _⟩ := except_bind_eq_ok hc
      exact hall hkeys
  | clear _ | size _ =>
      intro token htoken
      exact absurd htoken List.not_mem_nil

/-- The session and the records are in step. -/
structure KeepsRecords (tokenCalls : List TokenCall) (s : Session) : Prop where
  /-- each call has returned what it returns on the records, -/
  returned : s.returned <+: (RecordMap.outcomes tokenCalls).map .ok
  /-- and between two calls the store holds the records -/
  stored : s.client = none → Holds (tokensOf tokenCalls)
    (RecordMap.run (tokenCalls.take s.returned.length)) s.shared.store.view

variable {self : KVStoreClient} {tokenCalls : List TokenCall} {calls : List Call}

/-- What the plain map makes of the keys is what the records make of the tokens. -/
theorem runs_keep_records (hcalls : tokenCalls.mapM TokenCall.call = .ok calls)
    (hapart : ToldApart (tokensOf tokenCalls)) (haccepted : ∀ c ∈ calls, c.Accepted) :
    PlainMap.outcomes calls = RecordMap.outcomes tokenCalls ∧
      ∀ n, Holds (tokensOf tokenCalls) (RecordMap.run (tokenCalls.take n))
        (PlainMap.run (calls.take n)) := by
  have hmade := except_mapM_eq_ok hcalls
  have hinj : Set.InjOn place (recordsOf (tokensOf tokenCalls)) := by
    apply place_injOn _ hapart
    rintro token ⟨c, hc, htoken⟩
    obtain ⟨i, hi, rfl⟩ := List.mem_iff_getElem.mp hc
    exact TokenCall.inRange_of_call (hmade.get hi (hmade.length_eq ▸ hi)) token htoken
  have hempty : Holds (tokensOf tokenCalls) RecordMap.empty PlainMap.empty := Represents.empty
  have hruns : ∀ n, PlainMap.outcomes (calls.take n) = RecordMap.outcomes (tokenCalls.take n) ∧
      Holds (tokensOf tokenCalls) (RecordMap.run (tokenCalls.take n))
        (PlainMap.run (calls.take n)) := by
    intro n
    apply Holds.run hinj (List.forall₂_take n hmade) _ hempty
    · intro c' hc'
      exact haccepted c' (List.mem_of_mem_take hc')
    · intro c hc token htoken
      exact ⟨c, List.mem_of_mem_take hc, htoken⟩
  refine ⟨?_, fun n => (hruns n).2⟩
  have hall := (hruns calls.length).1
  rwa [List.take_length, ← hmade.length_eq, List.take_length] at hall

/-- In every run of calls on records, with names that the halves of their digests tell
apart: each call returns what it returns on the records, the store holds exactly the
records, the run does not get stuck before every call has returned, and it ends. -/
theorem session_keeps_records (hself : self.connected = true)
    (hcalls : tokenCalls.mapM TokenCall.call = .ok calls)
    (hapart : ToldApart (tokensOf tokenCalls)) (h : Within PlainMap.empty calls) :
    (∀ s, Session.Reaches self (Session.start calls) s → KeepsRecords tokenCalls s ∧
      ((∃ t, Session.Step self s t) ∨
        s.returned = (RecordMap.outcomes tokenCalls).map .ok)) ∧
    Acc (fun t s => Session.Step self s t) (Session.start calls) := by
  have hstart := Session.inv_start h
  have hlowers : Lowers (Session.Step self) (Session.Inv calls) := Session.inv_lowers hself
  obtain ⟨houtcomes, hruns⟩ := runs_keep_records hcalls hapart h.accepted
  refine ⟨?_, hlowers.acc hstart⟩
  intro s hs
  obtain ⟨n, hn⟩ := hlowers.reaches hstart hs
  refine ⟨⟨?_, ?_⟩, ?_⟩
  · rw [← houtcomes]
    exact hn.inStep.returned
  · intro hclient
    obtain ⟨_, _, hview⟩ := hn.inStep.between hclient
    rw [hview]
    exact hruns s.returned.length
  · rw [← houtcomes]
    exact hn.progress

/-- A record of a named request, then one of a numbered request. -/
def namedThenNumbered : List TokenCall :=
  [.put 0 ⟨.str "req-a", 1, 2, 0⟩ [7], .exists_ 0 ⟨.int 42, 1, 2, 0⟩]

/-- One record under a name, and one under a number. -/
theorem session_keeps_records_namedThenNumbered :
    ∃ calls, namedThenNumbered.mapM TokenCall.call = .ok calls ∧
      (∀ s, Session.Reaches ⟨true⟩ (Session.start calls) s → KeepsRecords namedThenNumbered s ∧
        ((∃ t, Session.Step ⟨true⟩ s t) ∨
          s.returned = (RecordMap.outcomes namedThenNumbered).map .ok)) ∧
      Acc (fun t s => Session.Step ⟨true⟩ s t) (Session.start calls) := by
  obtain ⟨named, hnamed⟩ : ∃ key, Coordinates.key ⟨.str "req-a", 1, 2, 0⟩ = .ok key :=
    Coordinates.key_ok_iff.mpr ⟨fun _ h => (nomatch h), by decide, by decide, by decide⟩
  obtain ⟨numbered, hnumbered⟩ : ∃ key, Coordinates.key ⟨.int 42, 1, 2, 0⟩ = .ok key := by
    refine Coordinates.key_ok_iff.mpr ⟨?_, by decide, by decide, by decide⟩
    intro n hn
    cases hn
    decide
  have hcalls : namedThenNumbered.mapM TokenCall.call =
      .ok [.put 0 named [7], .exists_ 0 numbered] := by
    unfold namedThenNumbered
    simp only [List.mapM_cons, List.mapM_nil, TokenCall.call, hnamed, hnumbered]
    rfl
  -- the digest of the name is not the number
  have hne : reqBytes (.str "req-a") ≠ reqBytes (.int 42) := by decide +kernel
  have hused : ∀ token ∈ tokensOf namedThenNumbered,
      token.reqIndex = .str "req-a" ∨ token.reqIndex = .int 42 := by
    rintro token ⟨c, hc, htoken⟩
    rcases List.mem_pair.mp hc with rfl | rfl
    · exact Or.inl (congrArg Coordinates.reqIndex (List.mem_singleton.mp htoken))
    · exact Or.inr (congrArg Coordinates.reqIndex (List.mem_singleton.mp htoken))
  refine ⟨_, hcalls, ?_⟩
  apply session_keeps_records rfl hcalls
  -- one name alone, and no number with the same bytes
  · intro token htoken token' htoken' name hname hbytes
    rcases hused token htoken with hi | hi
    · rw [hi] at hname
      cases hname
      rcases hused token' htoken' with hi' | hi'
      · exact hi'
      · exact absurd (hi' ▸ hbytes) hne
    · rw [hi] at hname
      cases hname
  · have hkey : ∀ {key : Bytes}, key.length = 32 → ∀ k ∈ [key], k.length = 32 := by
      intro key hlen k hk
      rw [List.mem_singleton.mp hk]
      exact hlen
    have hzero : (0 : ℤ) ≤ 0 := by decide
    have htype : (0 : ℤ) ≤ 0xFF := by decide
    have hone : 1 ≤ kMaxBatchCount := by decide
    -- both calls are within the limits
    refine ⟨⟨⟨hzero, htype, hkey (Coordinates.length_key hnamed), trivial⟩, hone, ?_, ?_, trivial⟩,
      ⟨⟨hzero, htype, hkey (Coordinates.length_key hnumbered), trivial⟩, hone, ?_, ?_, trivial⟩,
      trivial⟩
    · show ((Key.ofBytes named).toBytes ++ [7]).length < 2 ^ 32
      rw [List.length_append, Key.length_toBytes]
      decide
    · show ([] : Bytes).length < 2 ^ 32
      decide
    · show (Key.ofBytes numbered).toBytes.length < 2 ^ 32
      rw [Key.length_toBytes]
      decide
    · show 1 < 2 ^ 32
      decide

end AsuAscend.MicroKV
