/-
The store is linearizable, item by item.

In every run the accesses to the store have one order in which they act as on a
plain map, that keeps the order of every connection and the order in which
requests follow responses, and from which every response is made.

## The order is the order of the log

An access takes effect when `store_mutex_` is released, and the log has the accesses in this order.
It is a linearization of the items, since a `BatchGet` releases the mutex between two keys: items
of two connections can come in between each other, and a batch is not atomic.

That one request came before another in real time is said with an earlier world of the same run
(`World.Before`): the first has been answered there, and the second is not sent yet. From this and
the log follow the last two fields of `Linearization`, which say what a read can return.
-/
import AsuAscend.MicroKV.Conversation

set_option autoImplicit false

open StreamPrograms SequentialObject NumberedLists

namespace AsuAscend.MicroKV

/-! ## Responses in a byte stream -/

/-- The responses that are complete in what a client has received: status byte
and payload. -/
def frames (stream : Bytes) : List (UInt8 × Bytes) :=
  if _h : stream.length < kResponseHeaderLength then
    []
  else
    let len := LittleEndian.value ((stream.drop 1).take 4)
    if stream.length < kResponseHeaderLength + len then
      []
    else
      (stream.getD 0 0, (stream.drop kResponseHeaderLength).take len) ::
        frames (stream.drop (kResponseHeaderLength + len))
termination_by stream.length
decreasing_by
  simp only [List.length_drop, kResponseHeaderLength] at *
  omega

/-- A response is its header and the payload. -/
theorem length_response (x : Status × Bytes) :
    (response x).length = kResponseHeaderLength + x.2.length := by
  unfold response kResponseHeaderLength
  rw [List.length_cons, List.length_append, LittleEndian.length_bytes]
  omega

/-- A response whose length fits its field is read back from the stream. -/
theorem frames_response {x : Status × Bytes} (hx : x.2.length < 2 ^ 32) (rest : Bytes) :
    frames (response x ++ rest) = (x.1.code, x.2) :: frames rest := by
  have hlen := length_response x
  have hfield : ((response x ++ rest).drop 1).take 4 = LittleEndian.bytes 4 x.2.length := rfl
  have hpayload : (response x ++ rest).drop kResponseHeaderLength = x.2 ++ rest := rfl
  have hstatus : (response x ++ rest).getD 0 0 = x.1.code := rfl
  rw [frames, dif_neg (by rw [List.length_append, hlen]; omega), hfield, hpayload, hstatus]
  dsimp only
  rw [LittleEndian.value_bytes_of_lt (w := 4) hx,
    if_neg (by rw [List.length_append, hlen]; omega), List.take_left, ← hlen, List.drop_left]

/-- A response that has not arrived in full is no response yet. -/
theorem frames_cut {x : Status × Bytes} (hx : x.2.length < 2 ^ 32) {stream : Bytes}
    (hpre : stream <+: response x) (hlt : stream.length < (response x).length) :
    frames stream = [] := by
  rw [length_response] at hlt
  rw [frames]
  split_ifs with h
  · rfl
  · obtain ⟨rest, hrest⟩ := hpre
    have hfield : (stream.drop 1).take 4 = LittleEndian.bytes 4 x.2.length := by
      have hdrop : ((response x).drop 1).take 4 = LittleEndian.bytes 4 x.2.length := rfl
      rw [← hdrop, ← hrest, List.drop_append_of_le_length (by unfold kResponseHeaderLength at h; omega),
        List.take_append_of_le_length (by
          rw [List.length_drop]; unfold kResponseHeaderLength at h; omega)]
    dsimp only
    rw [hfield, LittleEndian.value_bytes_of_lt (w := 4) hx, if_pos hlt]

/-- Every response in a prefix of a stream of responses is the one of its number. -/
theorem frames_getElem? {xs : List (Status × Bytes)} (hxs : ∀ x ∈ xs, x.2.length < 2 ^ 32)
    {stream : Bytes} (hpre : stream <+: xs.flatMap response) {k : ℕ} {f : UInt8 × Bytes}
    (hf : (frames stream)[k]? = some f) : ∃ x, xs[k]? = some x ∧ f = (x.1.code, x.2) := by
  induction xs generalizing stream k with
  | nil =>
      rw [List.prefix_nil.mp hpre, frames, dif_pos (by decide)] at hf
      simp at hf
  | cons x xs ih =>
      have hx := hxs x List.mem_cons_self
      rw [List.flatMap_cons] at hpre
      -- a cut response ends the stream
      rcases Nat.lt_or_ge stream.length (response x).length with hlt | hge
      · have hcut : stream <+: response x :=
          List.prefix_of_prefix_length_le hpre (List.prefix_append _ _) hlt.le
        rw [frames_cut hx hcut hlt] at hf
        simp at hf
      · obtain ⟨rest, rfl⟩ := List.prefix_of_prefix_length_le (List.prefix_append _ _) hpre hge
        rw [frames_response hx] at hf
        cases k with
        | zero =>
            rw [List.getElem?_cons_zero, Option.some.injEq] at hf
            exact ⟨x, rfl, hf.symm⟩
        | succ k =>
            rw [List.getElem?_cons_succ] at hf
            exact ih (fun x' hx' => hxs x' (List.mem_cons_of_mem _ hx'))
              (List.prefix_append_right_inj _ |>.mp hpre) hf

/-! ## What every run keeps -/

variable {ι : Type} [DecidableEq ι]

/-- The accesses made for one connection, each with the number of its request. -/
def actsOf (log : List (Entry ι)) (i : ι) : List (ℕ × Act) :=
  (log.filter fun e => e.conn = i).map fun e => (e.req, e.act)

/-- The results of the accesses made for request number `k` of a connection. -/
def resultsOf (log : List (Entry ι)) (i : ι) (k : ℕ) : List Act :=
  (log.filter fun e => e.conn = i ∧ e.req = k).map Entry.act

/-- The accesses without their results. -/
def opsOf (log : List (Entry ι)) : List StoreOp := log.map fun e => e.act.1

/-- The results of a request, picked out of the accesses of its connection. -/
theorem resultsOf_eq (log : List (Entry ι)) (i : ι) (k : ℕ) :
    resultsOf log i k = ((actsOf log i).filter fun p => p.1 = k).map Prod.snd := by
  unfold resultsOf actsOf
  rw [List.filter_map, List.map_map, List.filter_filter]
  congr 1
  apply List.filter_congr
  intro e _
  simp [Bool.and_comm]

/-- An access more is one of its own connection. -/
theorem actsOf_append (log : List (Entry ι)) (label : Label) (i j : ι) (k : ℕ) :
    actsOf (log ++ label.entries i k) j = if j = i then actsOf log j ++ label.made k
      else actsOf log j := by
  unfold actsOf
  rw [List.filter_append, List.map_append]
  cases label with
  | silent => simp [Label.entries, Label.made]
  | nextTurn => simp [Label.entries, Label.made]
  | accessed a =>
      by_cases hj : j = i
      · subst hj
        simp [Label.entries, Label.made]
      · simp [Label.entries, hj, Ne.symm hj]

/-- Every connection is in conversation, the store is what the accesses made of
it, and a thread that holds the mutex has found the store as it still is. -/
structure World.Inv (w : World ι) : Prop where
  conversations : ∀ i, ∃ past did written,
    Conversation (w.conn i) (actsOf w.log i) past did written
  lock : ∀ i found, w.shared.lock = some (i, found) → found = w.shared.store
  results : w.log.map Entry.act = trace KVStore.step KVStore.empty (opsOf w.log)
  store : w.shared.store = after KVStore.step KVStore.empty (opsOf w.log)

theorem World.Inv.init : (World.init : World ι).Inv where
  conversations := fun _ => ⟨[], [], [], Conversation.fresh⟩
  lock := fun i found h => by cases h
  results := rfl
  store := rfl

/-- A step of the client of connection `i` touches that connection only. -/
theorem World.Inv.setConn {w : World ι} (h : w.Inv) (i : ι) {c : Connection}
    (hc : ∀ past did written, Conversation (w.conn i) (actsOf w.log i) past did written →
      Conversation c (actsOf w.log i) past did written) : (w.setConn i c).Inv where
  conversations := by
    intro j
    obtain ⟨past, did, written, hj⟩ := h.conversations j
    refine ⟨past, did, written, ?_⟩
    show Conversation (Function.update w.conn i c j) (actsOf w.log j) past did written
    by_cases hji : j = i
    · subst hji
      rw [Function.update_self]
      exact hc _ _ _ hj
    · rw [Function.update_of_ne hji]
      exact hj
  lock := h.lock
  results := h.results
  store := h.store

/-- The critical section: the access acts on the store as it is. -/
theorem World.Inv.access {w : World ι} (h : w.Inv) {i : ι} {e : Endpoint} {sh : Shared ι}
    {label : Label} {closed : Bool} {e0 : Endpoint}
    (hstep : ThreadStep i closed e0 w.shared label e sh) (k : ℕ) :
    (∀ j found, sh.lock = some (j, found) → found = sh.store) ∧
    (w.log ++ label.entries i k).map Entry.act =
      trace KVStore.step KVStore.empty (opsOf (w.log ++ label.entries i k)) ∧
    sh.store = after KVStore.step KVStore.empty (opsOf (w.log ++ label.entries i k)) := by
  have hsame : (w.log ++ ([] : List (Entry ι))).map Entry.act =
      trace KVStore.step KVStore.empty (opsOf (w.log ++ ([] : List (Entry ι)))) ∧
      w.shared.store = after KVStore.step KVStore.empty (opsOf (w.log ++ ([] : List (Entry ι)))) := by
    rw [List.append_nil]
    exact ⟨h.results, h.store⟩
  generalize hs : w.shared = s at hstep
  cases hstep with
  | recv _ _ _ _ _ => exact ⟨hs ▸ h.lock, hs ▸ hsame⟩
  | recvEnds _ _ _ => exact ⟨hs ▸ h.lock, hs ▸ hsame⟩
  | recvFails _ _ => exact ⟨hs ▸ h.lock, hs ▸ hsame⟩
  | send _ _ _ => exact ⟨hs ▸ h.lock, hs ▸ hsame⟩
  | sendFails _ _ => exact ⟨hs ▸ h.lock, hs ▸ hsame⟩
  | turn _ => exact ⟨hs ▸ h.lock, hs ▸ hsame⟩
  | lock _ _ =>
      refine ⟨?_, hs ▸ hsame⟩
      intro j found hj
      rw [Option.some.injEq, Prod.mk.injEq] at hj
      exact hj.2.symm
  | @unlock o next found _ hheld =>
      -- nobody else has changed the store since the lock was taken
      have hfound : found = w.shared.store := h.lock i found (by rw [hs, hheld])
      have hops : opsOf (w.log ++ [(⟨i, k, ⟨o, (KVStore.step o found).1⟩⟩ : Entry ι)]) =
          opsOf w.log ++ [o] := List.map_append
      refine ⟨fun j found' hj => (Option.some_ne_none _ hj.symm).elim, ?_, ?_⟩
      · show (w.log ++ [(⟨i, k, ⟨o, (KVStore.step o found).1⟩⟩ : Entry ι)]).map Entry.act = _
        rw [List.map_append, Label.entries, hops, trace_append, h.results, hfound, h.store]
        rfl
      · show (KVStore.step o found).2 = after _ _ (opsOf (w.log ++ [_]))
        rw [hops, after_append, hfound, h.store]
        rfl

/-- **Every step** of any connection keeps the invariant. -/
theorem World.Inv.step {w w' : World ι} (h : w.Inv) (hstep : w.Step w') : w'.Inv := by
  cases hstep with
  | issue i r hr hopen => exact h.setConn i fun _ _ _ hc => hc.issue hr hopen
  | transmit i n _ => exact h.setConn i fun _ _ _ hc => hc.transmit n
  | receive i n hopen => exact h.setConn i fun _ _ _ hc => hc.receive hopen n
  | close i => exact h.setConn i fun _ _ _ hc => hc.close
  | @thread i label e sh hthread =>
      obtain ⟨hlock, hresults, hstore⟩ := h.access hthread (w.conn i).served
      refine ⟨?_, hlock, hresults, hstore⟩
      intro j
      obtain ⟨past, did, written, hj⟩ := h.conversations j
      show ∃ past did written, Conversation (Function.update w.conn i _ j)
        (actsOf (w.log ++ label.entries i _) j) past did written
      rw [actsOf_append]
      by_cases hji : j = i
      · subst hji
        rw [Function.update_self, if_pos rfl]
        exact hj.thread hthread
      · rw [Function.update_of_ne hji, if_neg hji]
        exact ⟨past, did, written, hj⟩

/-- So it holds in every world that is reached. -/
theorem World.Reaches.inv {w : World ι} (h : World.init.Reaches w) : w.Inv := by
  induction h with
  | refl => exact World.Inv.init
  | tail _ hstep ih => exact ih.step hstep

/-! ## Runs only add -/

theorem World.Step.grows {w w' : World ι} (h : w.Step w') :
    w.log <+: w'.log ∧ ∀ j, (w.conn j).issued <+: (w'.conn j).issued := by
  have hset : ∀ (i : ι) (c : Connection), (w.conn i).issued <+: c.issued →
      ∀ j, (w.conn j).issued <+: (Function.update w.conn i c j).issued := by
    intro i c hc j
    by_cases hji : j = i
    · subst hji
      rw [Function.update_self]
      exact hc
    · rw [Function.update_of_ne hji]
  cases h with
  | issue i r _ _ => exact ⟨List.prefix_refl _, hset i _ (List.prefix_append _ _)⟩
  | transmit i n _ => exact ⟨List.prefix_refl _, hset i _ (List.prefix_refl _)⟩
  | receive i n _ => exact ⟨List.prefix_refl _, hset i _ (List.prefix_refl _)⟩
  | close i => exact ⟨List.prefix_refl _, hset i _ (List.prefix_refl _)⟩
  | thread i _ => exact ⟨List.prefix_append _ _, hset i _ (List.prefix_refl _)⟩

theorem World.Reaches.grows {w w' : World ι} (h : w.Reaches w') :
    w.log <+: w'.log ∧ ∀ j, (w.conn j).issued <+: (w'.conn j).issued := by
  induction h with
  | refl => exact ⟨List.prefix_refl _, fun _ => List.prefix_refl _⟩
  | tail _ hstep ih =>
      exact ⟨ih.1.trans hstep.grows.1, fun j => (ih.2 j).trans (hstep.grows.2 j)⟩

/-! ## The accesses of one request -/

/-- What the log has of a request is what its turn has done. -/
theorem Conversation.results {c : Connection} {log : List (Entry ι)} {i : ι}
    {past : List (List Act)} {did : List Act} {written : Bytes}
    (h : Conversation c (actsOf log i) past did written) (k : ℕ) :
    resultsOf log i k = ((past ++ [did])[k]?).getD [] := by
  rw [resultsOf_eq, h.acts_eq, filter_number]

/-- The accesses made for a request are the first ones it asks for. -/
theorem World.Inv.results_prefix {w : World ι} (h : w.Inv) (i : ι) (k : ℕ) :
    (resultsOf w.log i k).map Sigma.fst <+: itemsAt (w.conn i).issued k := by
  obtain ⟨past, did, written, hc⟩ := h.conversations i
  rw [hc.results]
  rcases Nat.lt_trichotomy k past.length with hlt | rfl | hgt
  · have hissued : k < (w.conn i).issued.length :=
      lt_of_lt_of_le hlt (hc.served ▸ hc.served_le)
    have hdone := (hc.finished k _ _ (List.getElem?_eq_getElem hissued)
      (List.getElem?_eq_getElem hlt)).1
    rw [List.getElem?_append_left hlt, List.getElem?_eq_getElem hlt, Option.getD_some, hdone,
      itemsAt_eq (List.getElem?_eq_getElem hissued)]
  · rw [List.getElem?_concat_length, Option.getD_some, hc.served]
    exact hc.begun
  · rw [List.getElem?_eq_none (by rw [List.length_append]; exact hgt)]
    exact List.nil_prefix

/-- The accesses of a connection stand in the log in the order of its requests. -/
theorem World.Inv.order {w : World ι} (h : w.Inv) (i : ι) :
    (actsOf w.log i).map (fun p => (p.1, p.2.1)) <+:
      number ((w.conn i).issued.map Request.items) := by
  obtain ⟨past, did, written, hc⟩ := h.conversations i
  have hpast : past.map (List.map Sigma.fst) =
      ((w.conn i).issued.map Request.items).take (w.conn i).served := by
    apply List.ext_getElem
    · rw [List.length_map, List.length_take, List.length_map, hc.served,
        Nat.min_eq_left hc.served_le]
    · intro k hk _
      rw [List.length_map] at hk
      rw [List.getElem_map, List.getElem_take, List.getElem_map]
      have hissued : k < (w.conn i).issued.length := lt_of_lt_of_le hk (hc.served ▸ hc.served_le)
      exact (hc.finished k _ _ (List.getElem?_eq_getElem hissued)
        (List.getElem?_eq_getElem hk)).1
  rw [hc.acts_eq, map_number, List.map_append, List.map_singleton, hpast]
  apply number_prefix
  · rw [List.length_map]
    exact hc.served_le
  · rw [List.getElem?_map]
    exact hc.begun

/-- The responses in a prefix of what the server writes are those of its requests. -/
theorem frames_replies {issued : List Request} {sent : List (List Act)}
    (hfits : ∀ (k : ℕ) (r : Request) (done : List Act), issued[k]? = some r →
      sent[k]? = some done → r.fits done = true)
    {stream : Bytes} (hpre : stream <+: replies issued sent) {k : ℕ} {f : UInt8 × Bytes}
    (hf : (frames stream)[k]? = some f) :
    ∃ r done, issued[k]? = some r ∧ sent[k]? = some done ∧
      f = ((r.answer done).1.code, (r.answer done).2) := by
  have hpair : ∀ p ∈ issued.zip sent, p.1.fits p.2 = true := by
    intro p hp
    obtain ⟨n, hn⟩ := List.mem_iff_getElem?.mp hp
    obtain ⟨hr, hdone⟩ := List.getElem?_zip_eq_some.mp hn
    exact hfits n _ _ hr hdone
  have hreplies : replies issued sent =
      ((issued.zip sent).map fun p => p.1.answer p.2).flatMap response := by
    unfold replies
    rw [List.flatMap_map]
    apply List.flatMap_congr
    intro p hp
    rw [Request.reply, hpair p hp, if_pos rfl]
  rw [hreplies] at hpre
  obtain ⟨x, hx, hfx⟩ := frames_getElem? (by
    intro x hx
    obtain ⟨p, hp, rfl⟩ := List.mem_map.mp hx
    exact of_decide_eq_true (hpair p hp)) hpre hf
  rw [List.getElem?_map, Option.map_eq_some_iff] at hx
  obtain ⟨p, hp, rfl⟩ := hx
  obtain ⟨hr, hdone⟩ := List.getElem?_zip_eq_some.mp hp
  exact ⟨p.1, p.2, hr, hdone, hfx⟩

/-- A response that has arrived is made from the results of all accesses of its
request. -/
theorem World.Inv.responses {w : World ι} (h : w.Inv) {i : ι} {k : ℕ} {f : UInt8 × Bytes}
    (hf : (frames (w.conn i).inbox)[k]? = some f) :
    ∃ r, (w.conn i).issued[k]? = some r ∧ (resultsOf w.log i k).map Sigma.fst = r.items ∧
      f = ((r.answer (resultsOf w.log i k)).1.code, (r.answer (resultsOf w.log i k)).2) := by
  obtain ⟨past, did, written, hc⟩ := h.conversations i
  have hfinished : ∀ (n : ℕ) (r : Request) (done : List Act), (w.conn i).issued[n]? = some r →
      past[n]? = some done → done.map Sigma.fst = r.items ∧ r.fits done = true := by
    intro n r done hr hdone
    obtain ⟨hitems, hkeeps⟩ := hc.finished n r done hr hdone
    rw [Request.keeps, Bool.and_eq_true] at hkeeps
    exact ⟨hitems, hkeeps.1⟩
  have hearlier : ∀ (n : ℕ) (done : List Act), past[n]? = some done →
      (past ++ [did])[n]? = some done := by
    intro n done hdone
    rw [List.getElem?_append_left (List.getElem?_eq_some_iff.mp hdone).1]
    exact hdone
  -- the responses written, the one being written among them if there is one
  obtain ⟨sent, hsent, hall, hinbox⟩ : ∃ sent : List (List Act),
      (∀ (n : ℕ) (done : List Act), sent[n]? = some done → (past ++ [did])[n]? = some done) ∧
      (∀ (n : ℕ) (r : Request) (done : List Act), (w.conn i).issued[n]? = some r →
        sent[n]? = some done → done.map Sigma.fst = r.items ∧ r.fits done = true) ∧
      (w.conn i).inbox <+: replies (w.conn i).issued sent := by
    have hreceived := hc.received
    rcases hc.writing with hnil | ⟨r, hr, hitems, hwritten⟩
    · rw [hnil, List.append_nil] at hreceived
      exact ⟨past, hearlier, hfinished, hreceived⟩
    · cases hfit : r.fits did with
      | false =>
          rw [Request.reply, hfit] at hwritten
          rw [List.prefix_nil.mp hwritten, List.append_nil] at hreceived
          exact ⟨past, hearlier, hfinished, hreceived⟩
      | true =>
          rw [← hc.served] at hr
          refine ⟨past ++ [did], fun _ _ hdone => hdone, ?_, ?_⟩
          · intro n r' done hr' hdone
            rcases Nat.lt_or_ge n past.length with hn | hn
            · rw [List.getElem?_append_left hn] at hdone
              exact hfinished n r' done hr' hdone
            · have hlast : n = past.length := by
                have hin := (List.getElem?_eq_some_iff.mp hdone).1
                rw [List.length_append, List.length_singleton] at hin
                omega
              subst hlast
              rw [List.getElem?_concat_length, Option.some.injEq] at hdone
              rw [← Option.some.inj (hr.symm.trans hr'), ← hdone]
              exact ⟨hitems, hfit⟩
          · rw [replies_turn hr]
            exact hreceived.trans ((List.prefix_append_right_inj _).mpr hwritten)
  obtain ⟨r, done, hr, hdone, hanswer⟩ :=
    frames_replies (fun n r done hr hdone => (hall n r done hr hdone).2) hinbox hf
  have hresults : resultsOf w.log i k = done := by
    rw [hc.results, hsent k done hdone]
    rfl
  rw [hresults]
  exact ⟨r, hr, (hall k r done hr hdone).1, hanswer⟩

/-! ## Linearizability -/

/-- The client of connection `i` has received the response to its request `k`. -/
def World.Answered (w : World ι) (i : ι) (k : ℕ) : Prop := k < (frames (w.conn i).inbox).length

/-- The client of connection `i` has begun to send its request `k`. -/
def World.Sent (w : World ι) (i : ι) (k : ℕ) : Prop := k < (w.conn i).issued.length

/-- On the way to `w` the response to request `k` of connection `i` was received
before request `k'` of connection `j` was sent. -/
def World.Before (w : World ι) (i : ι) (k : ℕ) (j : ι) (k' : ℕ) : Prop :=
  ∃ v : World ι, World.init.Reaches v ∧ v.Reaches w ∧ v.Answered i k ∧ ¬ v.Sent j k'

/-- The access is one of request `k` of connection `i`. -/
def Entry.Of (e : Entry ι) (i : ι) (k : ℕ) : Prop := e.conn = i ∧ e.req = k

/-- `L` is an order of all accesses that explains the run to `w`. -/
structure Linearization (w : World ι) (L : List (Entry ι)) : Prop where
  /-- requests, and the items of a batch, stay in order on every connection -/
  order : ∀ i, (actsOf L i).map (fun p => (p.1, p.2.1)) <+:
    number ((w.conn i).issued.map Request.items)
  /-- what was answered before a request was sent comes before it -/
  realTime : ∀ i k j k', w.Before i k j k' → ∀ (a b : ℕ) (ea eb : Entry ι),
    L[a]? = some ea → L[b]? = some eb → ea.Of i k → eb.Of j k' → a < b
  /-- every access has its result on the plain map, -/
  results : L.map Entry.act = trace PlainMap.step PlainMap.empty (opsOf L)
  /-- which the store ends up as -/
  store : w.shared.store.view = after PlainMap.step PlainMap.empty (opsOf L)
  /-- an answered request has made all its accesses, and its response is theirs -/
  responses : ∀ i k f, (frames (w.conn i).inbox)[k]? = some f →
    ∃ r, (w.conn i).issued[k]? = some r ∧ (resultsOf L i k).map Sigma.fst = r.items ∧
      f = ((r.answer (resultsOf L i k)).1.code, (r.answer (resultsOf L i k)).2)
  /-- a read sees what the last write left, or nothing where there is none -/
  reads : ∀ (b : ℕ) (e : Entry ι) p, L[b]? = some e → e.act.1.Reads p →
    (∀ c o, LastWrite (opsOf L) p b c → (opsOf L)[c]? = some o → e.act.Saw o.leaves) ∧
    ((∀ c, ¬ LastWrite (opsOf L) p b c) → e.act.Saw none)
  /-- and no older write than one answered, or seen by an answered read, before
  the read was sent -/
  fresh : ∀ i k j k', w.Before i k j k' → ∀ (a b : ℕ) (ea eb : Entry ι) p,
    L[a]? = some ea → L[b]? = some eb → ea.Of i k → eb.Of j k' → eb.act.1.Reads p →
    (ea.act.1.Writes p → ∃ c, a ≤ c ∧ LastWrite (opsOf L) p b c) ∧
    (∀ c, LastWrite (opsOf L) p a c → ∃ c', c ≤ c' ∧ LastWrite (opsOf L) p b c')

omit [DecidableEq ι] in
/-- An entry of the log, as an operation. -/
theorem opsOf_getElem? {L : List (Entry ι)} {n : ℕ} {e : Entry ι} (h : L[n]? = some e) :
    (opsOf L)[n]? = some e.act.1 := by
  unfold opsOf
  rw [List.getElem?_map, h]
  rfl

/-- An access is among the results of its request. -/
theorem mem_resultsOf {L : List (Entry ι)} {e : Entry ι} {i : ι} {k : ℕ} (he : e ∈ L)
    (hof : e.Of i k) : e.act ∈ resultsOf L i k :=
  List.mem_map_of_mem (List.mem_filter.mpr ⟨he, decide_eq_true hof⟩)

/-- **Real time.** A request that was answered before another was sent has made its accesses
before it. -/
theorem World.Inv.realTime {v w : World ι} (hv : v.Inv) (hw : w.Inv) (hvw : v.Reaches w) {i j : ι}
    {k k' : ℕ} (hanswered : v.Answered i k) (hsent : ¬ v.Sent j k') {a b : ℕ} {ea eb : Entry ι}
    (ha : w.log[a]? = some ea) (hb : w.log[b]? = some eb) (hea : ea.Of i k) (heb : eb.Of j k') :
    a < b := by
  obtain ⟨⟨more, hmore⟩, hissued⟩ := hvw.grows
  -- an access of the request not yet sent is not in the log yet
  have hlate : v.log.length ≤ b := by
    by_contra hlt
    rw [← hmore, List.getElem?_append_left (by omega)] at hb
    have hmem := mem_resultsOf (List.mem_of_getElem? hb) heb
    have hnone : itemsAt (v.conn j).issued k' = [] := by
      unfold itemsAt
      rw [List.getElem?_eq_none (Nat.not_lt.mp hsent)]
      rfl
    have hempty := hv.results_prefix j k'
    rw [hnone, List.prefix_nil, List.map_eq_nil_iff] at hempty
    rw [hempty] at hmem
    exact List.not_mem_nil hmem
  -- the answered request has made all its accesses, so none of them is later
  have hearly : a < v.log.length := by
    by_contra hge
    obtain ⟨r, hr, hitems, _⟩ := hv.responses (List.getElem?_eq_getElem hanswered)
    have hr' : (w.conn i).issued[k]? = some r := by
      obtain ⟨rest, hrest⟩ := hissued i
      rw [← hrest, List.getElem?_append_left (List.getElem?_eq_some_iff.mp hr).1]
      exact hr
    have hin : ea ∈ more := by
      rw [← hmore, List.getElem?_append_right (by omega)] at ha
      exact List.mem_of_getElem? ha
    have hmem := mem_resultsOf hin hea
    have hsplit : resultsOf w.log i k = resultsOf v.log i k ++ resultsOf more i k := by
      unfold resultsOf
      rw [← hmore, List.filter_append, List.map_append]
    have hlen := (hw.results_prefix i k).length_le
    rw [itemsAt_eq hr', ← hitems, List.length_map, List.length_map, hsplit,
      List.length_append] at hlen
    have hpos := List.length_pos_of_mem hmem
    omega
  omega

/-- For any number of connections and any interleaving, the accesses made so far
have an order that explains the run. -/
theorem item_operations_linearize {w : World ι} (h : World.init.Reaches w) :
    ∃ L : List (Entry ι), Linearization w L := by
  have hinv := h.inv
  have hrealTime : ∀ i k j k', w.Before i k j k' → ∀ (a b : ℕ) (ea eb : Entry ι),
      w.log[a]? = some ea → w.log[b]? = some eb → ea.Of i k → eb.Of j k' → a < b := by
    rintro i k j k' ⟨v, hv, hvw, hanswered, hsent⟩ a b ea eb ha hb hea heb
    exact hv.inv.realTime hinv hvw hanswered hsent ha hb hea heb
  have hresults : w.log.map Entry.act = trace PlainMap.step PlainMap.empty (opsOf w.log) := by
    rw [← KVStore.view_empty, store_views.trace_eq]
    exact hinv.results
  -- the accesses take effect in the order in which the lock was released
  refine ⟨w.log, hinv.order, hrealTime, hresults, ?_, fun i k f hf => hinv.responses hf, ?_, ?_⟩
  · rw [← KVStore.view_empty, store_views.after_eq, hinv.store]
  · intro b e p he hreads
    have hact : (trace PlainMap.step PlainMap.empty (opsOf w.log))[b]? = some e.act := by
      rw [← hresults, List.getElem?_map, he]
      rfl
    have hres := (trace_getElem? PlainMap.step PlainMap.empty hact).2
    have hsaw := PlainMap.saw_of_reads hreads (after PlainMap.step PlainMap.empty ((opsOf w.log).take b))
    rw [← hres] at hsaw
    refine ⟨?_, ?_⟩
    · intro c o hlast ho
      rw [PlainMap.after_lastWrite hlast ho] at hsaw
      exact hsaw
    · intro hnone
      rw [PlainMap.after_no_lastWrite] at hsaw
      · exact hsaw
      · intro c o hcb ho hwrites
        obtain ⟨c', _, hlast⟩ := lastWrite_ge hcb ho hwrites
        exact hnone c' hlast
  · intro i k j k' hbefore a b ea eb p ha hb hea heb _
    have hab := hrealTime i k j k' hbefore a b ea eb ha hb hea heb
    refine ⟨fun hwrites => lastWrite_ge hab (opsOf_getElem? ha) hwrites, ?_⟩
    rintro c ⟨hca, ⟨o, ho, hwrites⟩, _⟩
    exact lastWrite_ge (hca.trans hab) ho hwrites

/-! ## A run of two connections -/

/-- The thread of connection `i` has come to `t` with request `r`, all of whose bytes have been
sent. -/
structure World.At (w : World ι) (i : ι) (r : Request) (t : Talk StoreOp StoreOp.Res) : Prop where
  isOpen : (w.conn i).closed = false
  up : (w.conn i).up = t.input
  down : (w.conn i).down = t.out
  meets : Meets [] (· ≠ none) (Served r) (w.conn i).server t

/-- Where a thread has moved and nothing else: the other connections, and what the client of its
own connection has sent and received, are as they were. -/
structure World.Moved (w w' : World ι) (i : ι) : Prop where
  others : ∀ j, j ≠ i → w'.conn j = w.conn j
  issued : (w'.conn i).issued = (w.conn i).issued
  outbox : (w'.conn i).outbox = (w.conn i).outbox
  inbox : (w'.conn i).inbox = (w.conn i).inbox
  isOpen : (w'.conn i).closed = (w.conn i).closed

omit [DecidableEq ι] in
theorem World.Moved.refl (w : World ι) (i : ι) : w.Moved w i := ⟨fun _ _ => rfl, rfl, rfl, rfl, rfl⟩

omit [DecidableEq ι] in
theorem World.Moved.trans {u v w : World ι} {i : ι} (h : u.Moved v i) (h' : v.Moved w i) : u.Moved w i :=
  ⟨fun j hj => (h'.others j hj).trans (h.others j hj), h'.issued.trans h.issued,
    h'.outbox.trans h.outbox, h'.inbox.trans h.inbox, h'.isOpen.trans h.isOpen⟩

/-- One step of the thread of connection `i`. -/
theorem World.step_thread {w : World ι} {i : ι} {label : Label} {e : Endpoint} {sh : Shared ι}
    (h : ThreadStep i (w.conn i).closed (w.conn i).toEndpoint w.shared label e sh) :
    ∃ w', w.Reaches w' ∧ (w'.conn i).toEndpoint = e ∧ w'.shared = sh ∧
      w'.log = w.log ++ label.entries i (w.conn i).served ∧ w.Moved w' i ∧
      (w'.conn i).served = ((w.conn i).advance label e).served := by
  refine ⟨_, .single (.thread i h), ?_, rfl, rfl, ⟨fun j hj => Function.update_of_ne hj _ _, ?_, ?_, ?_, ?_⟩, ?_⟩
  all_goals
    dsimp only
    rw [Function.update_self]
  all_goals rfl

/-- A thread whose request asks for an access makes it, if nobody holds the lock. -/
theorem World.At.access {w : World ι} {i : ι} {r : Request} {t : Talk StoreOp StoreOp.Res}
    (h : w.At i r t) {o : StoreOp} {rest : List StoreOp} (htodo : t.todo = o :: rest) (hout : t.out = [])
    (hfree : w.shared.lock = none) :
    ∃ w' t', w.Reaches w' ∧ w'.At i r t' ∧ t'.todo = rest ∧ t'.out = [] ∧ w'.shared.lock = none ∧
      (∃ a : Act, a.1 = o ∧ t'.did = t.did ++ [a] ∧ w'.log = w.log ++ [⟨i, (w.conn i).served, a⟩]) ∧
      (w'.conn i).served = (w.conn i).served ∧ w.Moved w' i := by
  -- along the calls that the thread makes on its socket
  generalize hp : (w.conn i).server = p
  have hmeets := h.meets
  rw [hp] at hmeets
  induction p generalizing w t with
  | ret a =>
      have hnil := hmeets.2.1
      rw [htodo] at hnil
      cases hnil
  | recv n next ih =>
      obtain ⟨hpos, hle, _, _, _, hchunk⟩ := hmeets
      obtain ⟨w₁, hreach, hend, hshared, hlog, hmoved, hserved⟩ := World.step_thread
        (.recv n hp hpos le_rfl (by rw [h.up]; exact hle))
      have hup : (w₁.conn i).up = t.input.drop n := by rw [hend]; exact congrArg _ h.up
      have hserver : (w₁.conn i).server = next (some (t.input.take n)) := by
        rw [hend, ← h.up]
      have hnext := hchunk n hpos le_rfl
      have hat : w₁.At i r { t with input := t.input.drop n } :=
        ⟨hmoved.isOpen.trans h.isOpen, hup, by rw [hend]; exact h.down, by rw [hserver]; exact hnext⟩
      obtain ⟨w', t', hreach', hat', htodo', hout', hlock, ⟨a, ha, hdid, hlog'⟩, hserved', hmoved'⟩ :=
        ih _ hat htodo hout (by rw [hshared]; exact hfree) hserver hnext
      rw [hserved] at hlog' hserved'
      rw [hlog, Label.entries, List.append_nil] at hlog'
      exact ⟨w', t', hreach.trans hreach', hat', htodo', hout', hlock, ⟨a, ha, hdid, hlog'⟩,
        hserved', hmoved.trans hmoved'⟩
  | send d next ih =>
      -- a thread that writes has nothing left to ask for
      obtain ⟨hd, _, hsent⟩ := hmeets
      have hlen := List.length_pos_iff.mpr hd
      obtain ⟨a, more, hpost⟩ := (hsent 1 hlen).only_writes fun hnil => by
        rcases List.take_eq_nil_iff.mp (List.append_eq_nil_iff.mp hnil).2 with hone | hdata
        · exact absurd hone (by decide)
        · exact hd hdata
      have hnil := hpost.2.1
      dsimp only at hnil
      rw [htodo] at hnil
      cases hnil
  | op o' next ih =>
      obtain ⟨_, rest', htodo', hres⟩ := hmeets
      rw [htodo] at htodo'
      obtain ⟨rfl, rfl⟩ := List.cons.inj htodo'
      obtain ⟨w₁, hreach₁, hend₁, hshared₁, hlog₁, hmoved₁, hserved₁⟩ :=
        World.step_thread (.lock hp hfree)
      have hp₁ : (w₁.conn i).server = .op o next := by rw [hend₁]; exact hp
      have hheld : w₁.shared.lock = some (i, w.shared.store) := by rw [hshared₁]
      obtain ⟨w₂, hreach₂, hend₂, hshared₂, hlog₂, hmoved₂, hserved₂⟩ :=
        World.step_thread (.unlock hp₁ hheld)
      refine ⟨w₂, { t with todo := rest, did := t.did ++ [⟨o, (KVStore.step o w.shared.store).1⟩] },
        hreach₁.trans hreach₂, ⟨?_, ?_, ?_, ?_⟩, rfl, hout, by rw [hshared₂],
        ⟨⟨o, (KVStore.step o w.shared.store).1⟩, rfl, rfl, ?_⟩, ?_,
        hmoved₁.trans hmoved₂⟩
      · rw [hmoved₂.isOpen, hmoved₁.isOpen, h.isOpen]
      · rw [hend₂]
        dsimp only
        rw [hend₁]
        exact h.up
      · rw [hend₂]
        dsimp only
        rw [hend₁]
        exact h.down
      · rw [hend₂]
        exact hres _
      · rw [hlog₂, hlog₁, hserved₁]
        dsimp only [Label.entries, Connection.advance]
        rw [List.append_nil]
      · rw [hserved₂]
        exact hserved₁

/-- A thread that has nothing left to access writes the response and goes on to the next turn. -/
theorem World.At.answer {w : World ι} {i : ι} {r : Request} {t : Talk StoreOp StoreOp.Res}
    (h : w.At i r t) (htodo : t.todo = []) (hkeeps : r.keeps t.did = true) :
    ∃ w', w.Reaches w' ∧ (w'.conn i).server = handleClientTurn ∧ (w'.conn i).up = [] ∧
      (w'.conn i).down = r.reply t.did ∧ w'.shared = w.shared ∧ w'.log = w.log ∧
      (w'.conn i).served = (w.conn i).served + 1 ∧ w.Moved w' i := by
  generalize hp : (w.conn i).server = p
  have hmeets := h.meets
  rw [hp] at hmeets
  induction p generalizing w t with
  | ret a =>
      obtain ⟨hinput, _, _, hout, ha⟩ := hmeets
      rw [if_pos hkeeps] at ha
      rw [ha] at hp
      obtain ⟨w', hreach, hend, hshared, hlog, hmoved, hserved⟩ := World.step_thread (.turn hp)
      refine ⟨w', hreach, by rw [hend], ?_, ?_, hshared, hlog.trans (List.append_nil _), hserved, hmoved⟩
      · rw [hend, ← hinput]
        exact h.up
      · rw [hend, ← hout]
        exact h.down
  | recv n next ih =>
      obtain ⟨hpos, hle, _, _, _, hchunk⟩ := hmeets
      obtain ⟨w₁, hreach, hend, hshared, hlog, hmoved, hserved⟩ := World.step_thread
        (.recv n hp hpos le_rfl (by rw [h.up]; exact hle))
      have hup : (w₁.conn i).up = t.input.drop n := by rw [hend]; exact congrArg _ h.up
      have hserver : (w₁.conn i).server = next (some (t.input.take n)) := by
        rw [hend, ← h.up]
      have hat : w₁.At i r { t with input := t.input.drop n } :=
        ⟨hmoved.isOpen.trans h.isOpen, hup, by rw [hend]; exact h.down,
          by rw [hserver]; exact hchunk n hpos le_rfl⟩
      obtain ⟨w', hreach', hturn, hup', hdown, hshared', hlog', hserved', hmoved'⟩ :=
        ih _ hat htodo hkeeps hserver (hchunk n hpos le_rfl)
      exact ⟨w', hreach.trans hreach', hturn, hup', hdown, hshared'.trans hshared,
        hlog'.trans (hlog.trans (List.append_nil _)), by rw [hserved', hserved]; rfl, hmoved.trans hmoved'⟩
  | send d next ih =>
      obtain ⟨hd, _, hsent⟩ := hmeets
      have hlen := List.length_pos_iff.mpr hd
      -- the call takes all that is left
      obtain ⟨w₁, hreach, hend, hshared, hlog, hmoved, hserved⟩ := World.step_thread
        (.send ⟨d.length, hlen⟩ hp le_rfl)
      have hserver : (w₁.conn i).server = next (some ⟨d.length, hlen⟩) := by rw [hend]
      have hat : w₁.At i r { t with out := t.out ++ d.take d.length } := by
        refine ⟨hmoved.isOpen.trans h.isOpen, by rw [hend]; exact h.up, ?_, ?_⟩
        · rw [hend]
          dsimp only
          rw [h.down]
          rfl
        · rw [hserver]
          exact hsent ⟨d.length, hlen⟩ le_rfl
      obtain ⟨w', hreach', hturn, hup', hdown, hshared', hlog', hserved', hmoved'⟩ :=
        ih _ hat htodo hkeeps hserver (hsent ⟨d.length, hlen⟩ le_rfl)
      exact ⟨w', hreach.trans hreach', hturn, hup', hdown, hshared'.trans hshared,
        hlog'.trans (hlog.trans (List.append_nil _)), by rw [hserved', hserved]; rfl, hmoved.trans hmoved'⟩
  | op o next ih =>
      obtain ⟨_, rest, hrest, _⟩ := hmeets
      rw [htodo] at hrest
      cases hrest

/-- A client sends its next request whole, on a connection with nothing under way. -/
theorem World.begin {w : World ι} {i : ι} {r : Request} (hr : r.Valid) (hreject : r.rejected = false)
    (hopen : (w.conn i).closed = false) (hserver : (w.conn i).server = handleClientTurn)
    (hup : (w.conn i).up = []) (hdown : (w.conn i).down = []) (houtbox : (w.conn i).outbox = []) :
    ∃ w', w.Reaches w' ∧ w'.At i r ⟨r.message, r.items, [], []⟩ ∧ w'.shared = w.shared ∧ w'.log = w.log ∧
      (w'.conn i).issued = (w.conn i).issued ++ [r] ∧ (w'.conn i).served = (w.conn i).served ∧
      (w'.conn i).inbox = (w.conn i).inbox ∧ (w'.conn i).outbox = [] ∧ ∀ j, j ≠ i → w'.conn j = w.conn j := by
  have hencode : r.encode = r.message := by
    unfold Request.encode
    cases r <;> first | exact List.append_nil _ | cases hreject
  have hmsg : (w.conn i).outbox ++ r.encode = r.message := by rw [houtbox, hencode, List.nil_append]
  -- the request is issued, and then transmitted in one piece
  obtain ⟨w₁, h₁, hc₁, ho₁, hs₁, hl₁⟩ : ∃ w₁, w.Step w₁ ∧ w₁.conn i = { w.conn i with
      issued := (w.conn i).issued ++ [r], outbox := (w.conn i).outbox ++ r.encode } ∧
      (∀ j, j ≠ i → w₁.conn j = w.conn j) ∧ w₁.shared = w.shared ∧ w₁.log = w.log :=
    ⟨_, .issue i r hr hopen, Function.update_self _ _ _, fun j hj => Function.update_of_ne hj _ _, rfl, rfl⟩
  obtain ⟨w₂, h₂, hc₂, ho₂, hs₂, hl₂⟩ : ∃ w₂, w₁.Step w₂ ∧ w₂.conn i = { w₁.conn i with
      outbox := (w₁.conn i).outbox.drop r.message.length
      up := (w₁.conn i).up ++ (w₁.conn i).outbox.take r.message.length } ∧
      (∀ j, j ≠ i → w₂.conn j = w₁.conn j) ∧ w₂.shared = w₁.shared ∧ w₂.log = w₁.log :=
    ⟨_, .transmit i r.message.length (by rw [hc₁]; exact hopen), Function.update_self _ _ _,
      fun j hj => Function.update_of_ne hj _ _, rfl, rfl⟩
  rw [hc₁] at hc₂
  dsimp only at hc₂
  rw [hmsg, List.take_length, List.drop_length, hup, List.nil_append] at hc₂
  refine ⟨w₂, (Relation.ReflTransGen.single h₁).tail h₂, ⟨?_, ?_, ?_, ?_⟩, hs₂.trans hs₁, hl₂.trans hl₁,
    ?_, ?_, ?_, ?_, fun j hj => (ho₂ j hj).trans (ho₁ j hj)⟩
  all_goals rw [hc₂]
  · exact hopen
  · exact hdown
  · show Meets [] _ _ (w.conn i).server _
    rw [hserver]
    exact serves_request hr

/-- A client receives all that has been written for it. -/
theorem World.fetch {w : World ι} {i : ι} (hopen : (w.conn i).closed = false) :
    ∃ w', w.Reaches w' ∧ (w'.conn i).inbox = (w.conn i).inbox ++ (w.conn i).down ∧
      (w'.conn i).down = [] ∧ (w'.conn i).server = (w.conn i).server ∧ (w'.conn i).up = (w.conn i).up ∧
      (w'.conn i).outbox = (w.conn i).outbox ∧ (w'.conn i).served = (w.conn i).served ∧
      (w'.conn i).closed = false ∧ (w'.conn i).issued = (w.conn i).issued ∧ w'.shared = w.shared ∧
      w'.log = w.log ∧ ∀ j, j ≠ i → w'.conn j = w.conn j := by
  refine ⟨_, .single (.receive i (w.conn i).down.length hopen), ?_, ?_, ?_, ?_, ?_, ?_, ?_, ?_, rfl, rfl,
    fun j hj => Function.update_of_ne hj _ _⟩
  all_goals
    dsimp only [World.setConn]
    rw [Function.update_self]
  · rw [List.take_length]
  · exact List.drop_length
  · exact hopen

omit [DecidableEq ι] in
/-- A connection that the other thread's moves have left alone is where it was. -/
theorem World.At.moved {w w' : World ι} {j : ι} {r : Request} {t : Talk StoreOp StoreOp.Res}
    (h : w.At j r t) (hconn : w'.conn j = w.conn j) : w'.At j r t :=
  ⟨by rw [hconn]; exact h.isOpen, by rw [hconn]; exact h.up, by rw [hconn]; exact h.down,
    by rw [hconn]; exact h.meets⟩

/-- The first of two clients puts two records in a batch, while the second asks whether they exist;
the accesses of the two batches alternate. When the first one has its response, the second one
asks for the number of records. -/
theorem reaches_alternating : ∃ w : World Bool, World.init.Reaches w ∧
    w.log.map (fun e => (e.conn, e.req, e.act.1)) =
      [(false, 0, .put 0 (Key.ofBytes [1]) [7]), (true, 0, .exists_ 0 (Key.ofBytes [1])),
        (false, 0, .put 0 (Key.ofBytes [2]) [8]), (true, 0, .exists_ 0 (Key.ofBytes [2])),
        (true, 1, .size 0)] ∧
    w.Before false 0 true 1 := by
  have hput : (Request.batchPut 0 [(Key.ofBytes [1], [7]), (Key.ofBytes [2], [8])]).Valid := by
    refine ⟨by decide, fun item hitem => ?_⟩
    simp only [List.mem_cons, List.not_mem_nil, or_false] at hitem
    rcases hitem with rfl | rfl <;> decide
  have hexists : (Request.batchExists 0 [Key.ofBytes [1], Key.ofBytes [2]]).Valid := by
    show 2 ≤ kMaxBatchCount
    decide
  have hne : true ≠ false := Bool.noConfusion
  -- both batches are sent
  obtain ⟨w₁, h₁, hf₁, hs₁, hl₁, hi₁, hv₁, hin₁, hob₁, ho₁⟩ := World.begin (w := World.init) (i := false)
    hput rfl rfl rfl rfl rfl rfl
  have hc₁ : w₁.conn true = Connection.fresh := ho₁ true hne
  obtain ⟨w₂, h₂, ht₂, hs₂, hl₂, hi₂, hv₂, hin₂, hob₂, ho₂⟩ := World.begin (w := w₁) (i := true)
    hexists rfl (by rw [hc₁]; rfl) (by rw [hc₁]; rfl) (by rw [hc₁]; rfl) (by rw [hc₁]; rfl)
    (by rw [hc₁]; rfl)
  have hfree₂ : w₂.shared.lock = none := by rw [hs₂, hs₁]; rfl
  -- the accesses alternate
  obtain ⟨w₃, f₃, h₃, hf₃, htodo₃, hout₃, hfree₃, ⟨a₃, ha₃, hdid₃, hl₃⟩, hv₃, hm₃⟩ :=
    (hf₁.moved (ho₂ false hne.symm)).access rfl rfl hfree₂
  obtain ⟨w₄, t₄, h₄, ht₄, htodo₄, hout₄, hfree₄, ⟨a₄, ha₄, hdid₄, hl₄⟩, hv₄, hm₄⟩ :=
    (ht₂.moved (hm₃.others true hne)).access rfl rfl hfree₃
  obtain ⟨w₅, f₅, h₅, hf₅, htodo₅, hout₅, hfree₅, ⟨a₅, ha₅, hdid₅, hl₅⟩, hv₅, hm₅⟩ :=
    (hf₃.moved (hm₄.others false hne.symm)).access htodo₃ hout₃ hfree₄
  obtain ⟨w₆, t₆, h₆, ht₆, htodo₆, hout₆, hfree₆, ⟨a₆, ha₆, hdid₆, hl₆⟩, hv₆, hm₆⟩ :=
    (ht₄.moved (hm₅.others true hne)).access htodo₄ hout₄ hfree₅
  -- the first client has its response
  obtain ⟨w₇, h₇, hserver₇, hup₇, hdown₇, hshared₇, hl₇, hv₇, hm₇⟩ :=
    (hf₅.moved (hm₆.others false hne.symm)).answer htodo₅ rfl
  have hopen₇ : (w₇.conn false).closed = false := by
    rw [hm₇.isOpen, hm₆.others false hne.symm]
    exact hf₅.isOpen
  obtain ⟨w₈, h₈, hin₈, hdown₈, hserver₈, hup₈, hob₈, hv₈, hopen₈, hi₈, hshared₈, hl₈, ho₈⟩ :=
    World.fetch hopen₇
  have htrue₈ : w₈.conn true = w₆.conn true := (ho₈ true hne).trans (hm₇.others true hne)
  have hinbox₈ : (w₈.conn false).inbox = response (.ok, []) := by
    rw [hin₈, hdown₇, hm₇.inbox, hm₆.others false hne.symm, hm₅.inbox, hm₄.others false hne.symm,
      hm₃.inbox, ho₂ false hne.symm, hin₁]
    rfl
  have hissued₈ : (w₈.conn true).issued.length = 1 := by
    rw [htrue₈, hm₆.issued, hm₅.others true hne, hm₄.issued, hm₃.others true hne, hi₂, hc₁]
    rfl
  have hserved₈ : (w₈.conn true).served = 0 := by
    rw [htrue₈, hv₆, hm₅.others true hne, hv₄, hm₃.others true hne, hv₂, hc₁]
    rfl
  have houtbox₈ : (w₈.conn true).outbox = [] := by
    rw [htrue₈, hm₆.outbox, hm₅.others true hne, hm₄.outbox, hm₃.others true hne, hob₂]
  -- the second one too, and it sends its next request
  have hkeeps : (Request.batchExists 0 [Key.ofBytes [1], Key.ofBytes [2]]).keeps t₆.did = true := by
    rw [hdid₆, hdid₄]
    rfl
  obtain ⟨w₉, h₉, hserver₉, hup₉, hdown₉, hshared₉, hl₉, hv₉, hm₉⟩ :=
    (ht₆.moved htrue₈).answer htodo₆ hkeeps
  have hopen₉ : (w₉.conn true).closed = false := by
    rw [hm₉.isOpen, htrue₈]
    exact ht₆.isOpen
  obtain ⟨w₁₀, h₁₀, hin₁₀, hdown₁₀, hserver₁₀, hup₁₀, hob₁₀, hv₁₀, hopen₁₀, hi₁₀, hshared₁₀, hl₁₀, ho₁₀⟩ :=
    World.fetch hopen₉
  obtain ⟨w₁₁, h₁₁, ht₁₁, hs₁₁, hl₁₁, hi₁₁, hv₁₁, _⟩ := World.begin (w := w₁₀) (i := true) (r := .size 0)
    trivial rfl hopen₁₀ (hserver₁₀.trans hserver₉) (hup₁₀.trans hup₉) hdown₁₀
    (hob₁₀.trans (hm₉.outbox.trans houtbox₈))
  have hfree₁₁ : w₁₁.shared.lock = none := by
    rw [hs₁₁, hshared₁₀, hshared₉, hshared₈, hshared₇, hfree₆]
  obtain ⟨w₁₂, t₁₂, h₁₂, ht₁₂, htodo₁₂, hout₁₂, hfree₁₂, ⟨a₁₂, ha₁₂, hdid₁₂, hl₁₂⟩, hv₁₂, hm₁₂⟩ :=
    ht₁₁.access rfl rfl hfree₁₁
  have hreach : World.init.Reaches w₈ :=
    ((((((h₁.trans h₂).trans h₃).trans h₄).trans h₅).trans h₆).trans h₇).trans h₈
  have hlater : w₈.Reaches w₁₂ := ((h₉.trans h₁₀).trans h₁₁).trans h₁₂
  refine ⟨w₁₂, hreach.trans hlater, ?_, ⟨w₈, hreach, hlater, ?_, ?_⟩⟩
  · have hserved₁₁ : (w₁₁.conn true).served = 1 := by
      rw [hv₁₁, hv₁₀, hv₉, hserved₈]
    have hserved₂ : (w₂.conn false).served = 0 := by
      rw [ho₂ false hne.symm, hv₁]
      rfl
    have hserved₃ : (w₃.conn true).served = 0 := by
      rw [hm₃.others true hne, hv₂, hc₁]
      rfl
    have hserved₄ : (w₄.conn false).served = 0 := by
      rw [hm₄.others false hne.symm, hv₃, hserved₂]
    have hserved₅ : (w₅.conn true).served = 0 := by
      rw [hm₅.others true hne, hv₄, hserved₃]
    rw [hl₁₂, hl₁₁, hl₁₀, hl₉, hl₈, hl₇, hl₆, hl₅, hl₄, hl₃, hl₂, hl₁, hserved₁₁, hserved₂, hserved₃,
      hserved₄, hserved₅]
    simp only [World.init, List.nil_append, List.map_cons, List.map_nil, List.cons_append, ha₃,
      ha₄, ha₅, ha₆, ha₁₂]
  · unfold World.Answered
    rw [hinbox₈, ← List.append_nil (response _), frames_response (by decide)]
    exact Nat.succ_pos _
  · unfold World.Sent
    rw [hissued₈]
    exact Nat.lt_irrefl 1

/-- Two batches at a time, and a request that follows a response. -/
theorem item_operations_linearize_two_clients : ∃ w : World Bool, World.init.Reaches w ∧
    w.log.map (fun e => (e.conn, e.req, e.act.1)) =
      [(false, 0, .put 0 (Key.ofBytes [1]) [7]), (true, 0, .exists_ 0 (Key.ofBytes [1])),
        (false, 0, .put 0 (Key.ofBytes [2]) [8]), (true, 0, .exists_ 0 (Key.ofBytes [2])),
        (true, 1, .size 0)] ∧
    w.Before false 0 true 1 ∧ ∃ L, Linearization w L := by
  obtain ⟨w, hw, hlog, hbefore⟩ := reaches_alternating
  exact ⟨w, hw, hlog, hbefore, item_operations_linearize hw⟩

end AsuAscend.MicroKV
