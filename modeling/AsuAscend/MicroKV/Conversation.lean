/-
One connection in any run: what its thread has made of the requests so far.

`Conversation` relates a connection to the accesses made for it: the finished
requests with the results of their accesses, and how far the thread is in the
next one. Every step of the system keeps it.

## Where a thread can be

It is idle between two requests, or active in one, or broken because the client has closed its
socket. While it is active, what it has read and written are the first parts of the request and of
its reply, and what it is still to do follows from `Meets`, so no line of the handler appears here:
`serves_request` is all that is known of it. `Label.made` are the accesses that a step appends to
the log.

A client may close at any time, and bytes on their way are lost then; until it does, everything
that is on the way in either direction is accounted for.
-/
import AsuAscend.MicroKV.Network

set_option autoImplicit false

open StreamPrograms SequentialObject NumberedLists

namespace AsuAscend.MicroKV

/-- The responses to finished requests, in order. -/
def replies (issued : List Request) (past : List (List Act)) : Bytes :=
  (issued.zip past).flatMap fun p => p.1.reply p.2

/-- The accesses that request number `k` asks for. -/
def itemsAt (issued : List Request) (k : ℕ) : List StoreOp :=
  (issued[k]?.map Request.items).getD []

/-- The accesses of the `k`-th request. -/
theorem itemsAt_eq {issued : List Request} {k : ℕ} {r : Request} (h : issued[k]? = some r) :
    itemsAt issued k = r.items := by
  unfold itemsAt
  rw [h]
  rfl

/-- The bytes of the requests after number `k`. -/
def laterBytes (issued : List Request) (k : ℕ) : Bytes :=
  (issued.drop (k + 1)).flatMap Request.encode

/-- A new request goes to the end of what is still to be read. -/
theorem laterBytes_issue {issued : List Request} {k : ℕ} (hk : k < issued.length) (r : Request) :
    laterBytes (issued ++ [r]) k = laterBytes issued k ++ r.encode := by
  unfold laterBytes
  rw [List.drop_append_of_le_length hk, List.flatMap_append, List.flatMap_singleton]

/-- After the last request there is nothing left to be read. -/
theorem laterBytes_end {issued : List Request} {k : ℕ} (hk : issued.length ≤ k + 1) :
    laterBytes issued k = [] := by
  unfold laterBytes
  rw [List.drop_eq_nil_of_le hk]
  rfl

/-- The next request stands first among the later ones. -/
theorem laterBytes_next {issued : List Request} {k : ℕ} {r : Request}
    (hr : issued[k + 1]? = some r) :
    laterBytes issued k = r.message ++ (r.trailing ++ laterBytes issued (k + 1)) := by
  obtain ⟨hlt, hget⟩ := List.getElem?_eq_some_iff.mp hr
  unfold laterBytes
  rw [List.drop_eq_getElem_cons hlt, hget, List.flatMap_cons, Request.encode, List.append_assoc]

/-- Where the thread is: waiting for a request, serving one, or cut off. -/
inductive Phase (c : Connection) (did : List Act) (written : Bytes) : Prop
  | idle (hserved : c.served = c.issued.length) (hserver : c.server = handleClientTurn)
      (hdid : did = []) (hwritten : written = []) (hstream : c.up ++ c.outbox = [])
  | active {r : Request} {t : Talk StoreOp StoreOp.Res} (hr : c.issued[c.served]? = some r)
      (hmeets : Meets [] (· ≠ none) (Served r) c.server t) (hdid : t.did = did)
      (hout : t.out = written) (htodo : did.map Sigma.fst ++ t.todo = r.items)
      (hstream : c.up ++ c.outbox <+: t.input ++ (r.trailing ++ laterBytes c.issued c.served))
      (hopen : c.closed = false →
        c.up ++ c.outbox = t.input ++ (r.trailing ++ laterBytes c.issued c.served))
  | broken (hclosed : c.closed = true) (hquiet : Quiet (· ≠ none) c.server)

/-- The accesses `acts` made for the connection are those of the finished
requests, `past`, and of the one being served, `did`; of the response to the
latter `written` has been sent. -/
structure Conversation (c : Connection) (acts : List (ℕ × Act)) (past : List (List Act))
    (did : List Act) (written : Bytes) : Prop where
  valid : ∀ r ∈ c.issued, r.Valid
  served : past.length = c.served
  served_le : c.served ≤ c.issued.length
  finished : ∀ (k : ℕ) (r : Request) (done : List Act), c.issued[k]? = some r →
    past[k]? = some done → done.map Sigma.fst = r.items ∧ r.keeps done = true
  acts_eq : acts = number (past ++ [did])
  begun : did.map Sigma.fst <+: itemsAt c.issued c.served
  writing : written = [] ∨ ∃ r, c.issued[c.served]? = some r ∧
    did.map Sigma.fst = r.items ∧ written <+: r.reply did
  sent : c.closed = false → c.inbox ++ c.down = replies c.issued past ++ written
  received : c.inbox <+: replies c.issued past ++ written
  phase : Phase c did written

theorem handleClientTurn_recv :
    ∃ next, handleClientTurn = .recv kRequestHeaderLength next := by
  unfold handleClientTurn readExact recvLoop
  rw [if_neg (by decide)]
  exact ⟨_, rfl⟩

/-- A thread at the start of a turn is not in the middle of something else. -/
theorem handleClientTurn_ne {p : Server (Option Bool)} (hp : ∀ max next, p ≠ .recv max next) :
    handleClientTurn ≠ p := by
  obtain ⟨next, hnext⟩ := handleClientTurn_recv
  rw [hnext]
  exact (hp _ next).symm

/-- A turn that is cut off before the first byte of a request ends the thread. -/
theorem handleClientTurn_quiet {max : ℕ} {next : Option Bytes → Server (Option Bool)}
    (h : handleClientTurn = .recv max next) {x : Option Bytes} (hx : x = none ∨ x = some []) :
    Quiet (· ≠ none) (next x) := by
  have hmeets := serves_request (r := .size 0) trivial
  rw [h] at hmeets
  obtain ⟨_, _, _, hnone, hend, _⟩ := hmeets
  rcases hx with rfl | rfl
  · exact hnone
  · exact hend

theorem Conversation.fresh : Conversation Connection.fresh [] [] [] [] where
  valid := fun r hr => absurd hr List.not_mem_nil
  served := rfl
  served_le := Nat.le_refl _
  finished := fun k r done hr _ => by simp [Connection.fresh] at hr
  acts_eq := rfl
  begun := List.prefix_refl _
  writing := Or.inl rfl
  sent := fun _ => rfl
  received := List.prefix_refl _
  phase := .idle rfl rfl rfl rfl rfl

variable {c : Connection} {acts : List (ℕ × Act)} {past : List (List Act)} {did : List Act}
  {written : Bytes}

/-- Only the bytes on their way to the thread and its place in its code move. -/
theorem Conversation.of_phase (h : Conversation c acts past did written) {up outbox : Bytes}
    {server : Server (Option Bool)}
    (hphase : Phase { c with up := up, server := server, outbox := outbox } did written) :
    Conversation { c with up := up, server := server, outbox := outbox } acts past did written :=
  ⟨h.valid, h.served, h.served_le, h.finished, h.acts_eq, h.begun, h.writing, h.sent, h.received,
    hphase⟩

/-! ## The steps of the client -/

/-- A new request changes no reply that has been given. -/
theorem replies_issue {issued : List Request} {past : List (List Act)}
    (h : past.length ≤ issued.length) (r : Request) :
    replies (issued ++ [r]) past = replies issued past := by
  unfold replies
  induction issued generalizing past with
  | nil => rw [List.eq_nil_of_length_eq_zero (Nat.le_zero.mp h), List.zip_nil_right, List.zip_nil_right]
  | cons r' issued ih =>
      cases past with
      | nil => rw [List.zip_nil_right, List.zip_nil_right]
      | cons done past =>
          rw [List.cons_append, List.zip_cons_cons, List.zip_cons_cons, List.flatMap_cons,
            List.flatMap_cons, ih (Nat.le_of_succ_le_succ h)]

/-- Nor the phase that the thread is in. -/
theorem Phase.issue (h : Phase c did written) {r : Request} (hr : r.Valid)
    (hopen : c.closed = false) :
    Phase { c with issued := c.issued ++ [r], outbox := c.outbox ++ r.encode } did written := by
  cases h with
  -- a request to an idle thread is the next one it serves
  | idle hserved hserver hdid hwritten hstream =>
      have hbytes : c.up ++ (c.outbox ++ r.encode) =
          r.message ++ (r.trailing ++ laterBytes (c.issued ++ [r]) c.served) := by
        rw [← List.append_assoc, hstream, laterBytes_end, List.append_nil, List.nil_append]
        · rfl
        · rw [List.length_append, hserved]
          exact Nat.le_refl _
      refine .active (r := r) (t := ⟨r.message, r.items, [], []⟩) ?_ ?_ hdid.symm hwritten.symm ?_
        ?_ fun _ => hbytes
      · show (c.issued ++ [r])[c.served]? = some r
        rw [hserved, List.getElem?_concat_length]
      · show Meets _ _ _ c.server _
        rw [hserver]
        exact serves_request hr
      · rw [hdid]
        rfl
      · exact hbytes ▸ List.prefix_refl _
  | @active r' t hcur hmeets hdid hout htodo _ hbytes =>
      have hlt := (List.getElem?_eq_some_iff.mp hcur).1
      have hbytes' : c.up ++ (c.outbox ++ r.encode) =
          t.input ++ (r'.trailing ++ laterBytes (c.issued ++ [r]) c.served) := by
        rw [← List.append_assoc, hbytes hopen, laterBytes_issue hlt]
        simp only [List.append_assoc]
      refine .active ?_ hmeets hdid hout htodo (hbytes' ▸ List.prefix_refl _) fun _ => hbytes'
      show (c.issued ++ [r])[c.served]? = some r'
      rw [List.getElem?_append_left hlt]
      exact hcur
  | broken hclosed hquiet => exact .broken hclosed hquiet

theorem Conversation.issue (h : Conversation c acts past did written) {r : Request} (hr : r.Valid)
    (hopen : c.closed = false) :
    Conversation { c with issued := c.issued ++ [r], outbox := c.outbox ++ r.encode }
      acts past did written := by
  -- the new request is behind all that are finished or begun
  have hpast : past.length ≤ c.issued.length := h.served ▸ h.served_le
  have hitems : ∀ k, k < c.issued.length → itemsAt (c.issued ++ [r]) k = itemsAt c.issued k := by
    intro k hk
    unfold itemsAt
    rw [List.getElem?_append_left hk]
  have hreplies := replies_issue hpast r
  refine ⟨?_, h.served, ?_, ?_, h.acts_eq, ?_, ?_, ?_, ?_, ?_⟩
  -- the requests are valid, the new one too
  · intro r' hr'
    rcases List.mem_append.mp hr' with hr' | hr'
    · exact h.valid r' hr'
    · rw [List.mem_singleton.mp hr']
      exact hr
  · show c.served ≤ (c.issued ++ [r]).length
    rw [List.length_append]
    exact le_trans h.served_le (Nat.le_add_right _ _)
  -- a finished request is one of the old ones
  · intro k r' done hr' hdone
    have hk : k < past.length := (List.getElem?_eq_some_iff.mp hdone).1
    have hr'' : c.issued[k]? = some r' := by
      rw [← List.getElem?_append_left (lt_of_lt_of_le hk hpast)]
      exact hr'
    exact h.finished k r' done hr'' hdone
  -- what has been done belongs to a request that was there already
  · show did.map Sigma.fst <+: itemsAt (c.issued ++ [r]) c.served
    cases h.phase with
    | idle _ _ hdid _ _ =>
        rw [hdid]
        exact List.nil_prefix
    | active hcur _ _ _ _ _ _ =>
        rw [hitems _ (List.getElem?_eq_some_iff.mp hcur).1]
        exact h.begun
    | broken hclosed _ => exact absurd hclosed (by rw [hopen]; decide)
  -- and so does what has been written
  · rcases h.writing with hw | ⟨r', hr', hw⟩
    · exact Or.inl hw
    · refine Or.inr ⟨r', ?_, hw⟩
      show (c.issued ++ [r])[c.served]? = some r'
      rw [List.getElem?_append_left (List.getElem?_eq_some_iff.mp hr').1]
      exact hr'
  -- no reply has changed
  · intro _
    rw [hreplies]
    exact h.sent hopen
  · rw [hreplies]
    exact h.received
  · exact h.phase.issue hr hopen

/-- Bytes that move from the client's calls into the stream change nothing else. -/
theorem Conversation.transmit (h : Conversation c acts past did written) (n : ℕ) :
    Conversation { c with outbox := c.outbox.drop n, up := c.up ++ c.outbox.take n }
      acts past did written := by
  have hbytes : c.up ++ c.outbox.take n ++ c.outbox.drop n = c.up ++ c.outbox := by
    rw [List.append_assoc, List.take_append_drop]
  apply h.of_phase
  cases h.phase with
  | idle hserved hserver hdid hwritten hstream =>
      exact .idle hserved hserver hdid hwritten (hbytes.trans hstream)
  | active hr hmeets hdid hout htodo hstream hopen =>
      exact .active hr hmeets hdid hout htodo (by rw [hbytes]; exact hstream)
        fun hc => hbytes.trans (hopen hc)
  | broken hclosed hquiet => exact .broken hclosed hquiet

theorem Conversation.receive (h : Conversation c acts past did written)
    (hopen : c.closed = false) (n : ℕ) :
    Conversation { c with down := c.down.drop n, inbox := c.inbox ++ c.down.take n }
      acts past did written := by
  have hbytes : c.inbox ++ c.down.take n ++ c.down.drop n = replies c.issued past ++ written := by
    rw [List.append_assoc, List.take_append_drop]
    exact h.sent hopen
  refine ⟨h.valid, h.served, h.served_le, h.finished, h.acts_eq, h.begun, h.writing,
    fun _ => hbytes, ⟨_, hbytes⟩, ?_⟩
  cases h.phase with
  | idle hserved hserver hdid hwritten hstream =>
      exact .idle hserved hserver hdid hwritten hstream
  | active hr hmeets hdid hout htodo hstream hopen =>
      exact .active hr hmeets hdid hout htodo hstream hopen
  | broken hclosed hquiet => exact .broken hclosed hquiet

theorem Conversation.close (h : Conversation c acts past did written) :
    Conversation { c with closed := true, outbox := [] } acts past did written := by
  refine ⟨h.valid, h.served, h.served_le, h.finished, h.acts_eq, h.begun, h.writing,
    fun hc => Bool.noConfusion hc, h.received, ?_⟩
  cases h.phase with
  | idle hserved hserver hdid hwritten hstream =>
      refine .idle hserved hserver hdid hwritten ?_
      show c.up ++ [] = []
      rw [List.append_nil]
      exact (List.append_eq_nil_iff.mp hstream).1
  | active hr hmeets hdid hout htodo hstream _ =>
      refine .active hr hmeets hdid hout htodo ?_ fun hc => Bool.noConfusion hc
      show c.up ++ [] <+: _
      rw [List.append_nil]
      exact (List.prefix_append _ _).trans hstream
  | broken _ hquiet => exact .broken rfl hquiet

/-! ## The steps of the thread -/

/-- **The thread reads** some bytes of the request that it is in. -/
theorem Conversation.recv (h : Conversation c acts past did written) {max : ℕ}
    {next : Option Bytes → Server (Option Bool)} (hserver : c.server = .recv max next) {n : ℕ}
    (hpos : 0 < n) (hmax : n ≤ max) (hup : n ≤ c.up.length) :
    Conversation { c with up := c.up.drop n, server := next (some (c.up.take n)) }
      acts past did written := by
  apply h.of_phase
  cases h.phase with
  | idle _ _ _ _ hstream =>
      rw [(List.append_eq_nil_iff.mp hstream).1, List.length_nil] at hup
      omega
  | @active r t hr hmeets hdid hout htodo hstream hopen =>
      rw [hserver] at hmeets
      obtain ⟨_, hlen, _, _, _, hchunk⟩ := hmeets
      have hinput : n ≤ t.input.length := le_trans hmax hlen
      obtain ⟨more, hmore⟩ := hstream
      rw [List.append_assoc] at hmore
      -- the bytes taken are the next bytes of the message
      have htake : c.up.take n = t.input.take n := by
        rw [← List.take_append_of_le_length hup, hmore, List.take_append_of_le_length hinput]
      have hdrop : ∀ bs bs', c.up ++ bs = t.input ++ bs' →
          c.up.drop n ++ bs = t.input.drop n ++ bs' := by
        intro bs bs' hbs
        rw [← List.drop_append_of_le_length hup, hbs, List.drop_append_of_le_length hinput]
      rw [htake]
      refine .active hr (hchunk n hpos hmax) hdid hout htodo ⟨more, ?_⟩
        fun hc => hdrop _ _ (hopen hc)
      show c.up.drop n ++ c.outbox ++ more = _
      rw [List.append_assoc]
      exact hdrop _ _ hmore
  | broken hclosed hquiet =>
      rw [hserver] at hquiet
      exact .broken hclosed (hquiet _)

/-- A `recv` that fails or finds the stream ended cuts the thread off. -/
theorem Conversation.recvBreaks (h : Conversation c acts past did written) {max : ℕ}
    {next : Option Bytes → Server (Option Bool)} (hserver : c.server = .recv max next)
    (hclosed : c.closed = true) {x : Option Bytes} (hx : x = none ∨ x = some []) :
    Conversation { c with server := next x } acts past did written := by
  apply h.of_phase
  refine .broken hclosed ?_
  cases h.phase with
  | idle _ hidle _ _ _ =>
      exact handleClientTurn_quiet (hidle.symm.trans hserver) hx
  | active _ hmeets _ _ _ _ _ =>
      rw [hserver] at hmeets
      obtain ⟨_, _, _, hnone, hend, _⟩ := hmeets
      rcases hx with rfl | rfl
      · exact hnone
      · exact hend
  | broken _ hquiet =>
      rw [hserver] at hquiet
      exact hquiet _

/-- A thread that writes to a closed connection gives up. -/
theorem Conversation.sendBreaks (h : Conversation c acts past did written) {data : Bytes}
    {next : Option ℕ+ → Server (Option Bool)} (hserver : c.server = .send data next)
    (hclosed : c.closed = true) :
    Conversation { c with server := next none } acts past did written := by
  apply h.of_phase
  refine .broken hclosed ?_
  cases h.phase with
  | idle _ hidle _ _ _ =>
      rw [hidle] at hserver
      exact absurd hserver (handleClientTurn_ne fun _ _ hrecv => by cases hrecv)
  | active _ hmeets _ _ _ _ _ =>
      rw [hserver] at hmeets
      exact hmeets.2.1
  | broken _ hquiet =>
      rw [hserver] at hquiet
      exact hquiet _

/-- **The thread writes** some bytes of its response. -/
theorem Conversation.send (h : Conversation c acts past did written) {data : Bytes}
    {next : Option ℕ+ → Server (Option Bool)} (hserver : c.server = .send data next) {n : ℕ+}
    (hlen : (n : ℕ) ≤ data.length) :
    ∃ written', Conversation { c with server := next (some n), down := c.down ++ data.take n }
      acts past did written' := by
  cases h.phase with
  | idle _ hidle _ _ _ =>
      rw [hidle] at hserver
      exact absurd hserver (handleClientTurn_ne fun _ _ hrecv => by cases hrecv)
  | @active r t hr hmeets hdid hout htodo hstream hopen =>
      rw [hserver] at hmeets
      have hnext := hmeets.2.2 n hlen
      have hne : t.out ++ data.take n ≠ [] := by
        intro hnil
        have htake := congrArg List.length (List.append_eq_nil_iff.mp hnil).2
        rw [List.length_take, List.length_nil] at htake
        have := n.pos
        omega
      -- from here on the thread only writes, so the rest of the response is fixed
      obtain ⟨a, more, hinput, hdone, hitems, hreply, _⟩ := hnext.only_writes hne
      rw [hdid] at hitems hreply
      have hprefix : written ++ data.take n <+: r.reply did := by
        rw [← hreply, ← hout]
        exact List.prefix_append _ _
      refine ⟨written ++ data.take n, h.valid, h.served, h.served_le, h.finished, h.acts_eq,
        h.begun, Or.inr ⟨r, hr, hitems, hprefix⟩, ?_, ?_, ?_⟩
      · intro hc
        show c.inbox ++ (c.down ++ data.take n) = _
        rw [← List.append_assoc, h.sent hc, List.append_assoc]
      · apply h.received.trans
        rw [← List.append_assoc]
        exact List.prefix_append _ _
      · exact .active hr hnext hdid (by rw [hout]) htodo hstream hopen
  | broken hclosed hquiet =>
      rw [hserver] at hquiet
      refine ⟨written, h.valid, h.served, h.served_le, h.finished, h.acts_eq, h.begun, h.writing,
        fun hc => ?_, h.received, .broken hclosed (hquiet _)⟩
      exact absurd hclosed (by rw [hc]; exact Bool.false_ne_true)

/-- A turn that is finished has given its reply. -/
theorem replies_turn {issued : List Request} {past : List (List Act)} {r : Request}
    (hr : issued[past.length]? = some r) (did : List Act) :
    replies issued (past ++ [did]) = replies issued past ++ r.reply did := by
  unfold replies
  induction issued generalizing past with
  | nil => simp at hr
  | cons r' issued ih =>
      cases past with
      | nil =>
          rw [List.length_nil, List.getElem?_cons_zero, Option.some.injEq] at hr
          rw [hr]
          simp
      | cons done past =>
          rw [List.length_cons, List.getElem?_cons_succ] at hr
          rw [List.cons_append, List.zip_cons_cons, List.zip_cons_cons, List.flatMap_cons,
            List.flatMap_cons, ih hr, List.append_assoc]

/-- An access is the next item of the request being served. -/
theorem Conversation.accessed (h : Conversation c acts past did written) {o : StoreOp}
    {next : o.Res → Server (Option Bool)} (hserver : c.server = .op o next) (res : o.Res) :
    Conversation { c with server := next res } (acts ++ [(c.served, ⟨o, res⟩)]) past
      (did ++ [⟨o, res⟩]) written := by
  cases h.phase with
  | idle _ hidle _ _ _ =>
      rw [hidle] at hserver
      exact absurd hserver (handleClientTurn_ne fun _ _ hrecv => by cases hrecv)
  | @active r t hr hmeets hdid hout htodo hstream hopen =>
      rw [hserver] at hmeets
      obtain ⟨hnil, rest, hrest, hnext⟩ := hmeets
      have hitems : (did ++ [(⟨o, res⟩ : Act)]).map Sigma.fst ++ rest = r.items := by
        rw [List.map_append, List.append_assoc, ← htodo, hrest]
        rfl
      refine ⟨h.valid, h.served, h.served_le, h.finished, ?_, ?_, Or.inl (by rw [← hout, hnil]),
        h.sent, h.received, ?_⟩
      · rw [h.acts_eq, number_append_singleton, number_append_singleton, List.map_append,
          List.append_assoc, h.served]
        rfl
      · show _ <+: itemsAt c.issued c.served
        rw [itemsAt_eq hr, ← hitems]
        exact List.prefix_append _ _
      · exact .active hr (hnext res) (by rw [hdid]) hout hitems hstream hopen
  | broken _ hquiet =>
      rw [hserver] at hquiet
      exact hquiet.elim

/-- Only a rejected request has bytes behind its message, and the connection does not outlive it. -/
theorem Request.trailing_eq_nil {r : Request} (h : r.keeps did = true) : r.trailing = [] := by
  unfold Request.keeps at h
  cases r with
  | malformed head rest => simp [Request.rejected] at h
  | oversized command type count rest => simp [Request.rejected] at h
  | _ => rfl

/-- So each request that has been served has its reply, in order. -/
theorem Conversation.finished_turn (h : Conversation c acts past did written) {r : Request}
    (hr : c.issued[c.served]? = some r) (hitems : did.map Sigma.fst = r.items)
    (hkept : r.keeps did = true) (k : ℕ) (r' : Request) (done : List Act)
    (hr' : c.issued[k]? = some r') (hdone : (past ++ [did])[k]? = some done) :
    done.map Sigma.fst = r'.items ∧ r'.keeps done = true := by
  rcases Nat.lt_or_ge k past.length with hk | hk
  · rw [List.getElem?_append_left hk] at hdone
    exact h.finished k r' done hr' hdone
  · have hk' : k = past.length := by
      have hin := (List.getElem?_eq_some_iff.mp hdone).1
      rw [List.length_append, List.length_singleton] at hin
      omega
    subst hk'
    rw [List.getElem?_concat_length, Option.some.injEq] at hdone
    have hsame : r = r' := Option.some.inj (hr.symm.trans (h.served ▸ hr'))
    rw [← hdone, ← hsame]
    exact ⟨hitems, hkept⟩

/-- A turn begins: with the next request, or with none on the stream. -/
theorem Phase.start (hvalid : ∀ r ∈ c.issued, r.Valid) (hlt : c.served < c.issued.length)
    (hstream : c.up ++ c.outbox <+: laterBytes c.issued c.served)
    (hopen : c.closed = false → c.up ++ c.outbox = laterBytes c.issued c.served) :
    Phase { c with server := handleClientTurn, served := c.served + 1 } [] [] := by
  cases hnext : c.issued[c.served + 1]? with
  | none =>
      have hend : c.issued.length ≤ c.served + 1 := List.getElem?_eq_none_iff.mp hnext
      rw [laterBytes_end hend] at hstream
      exact .idle (Nat.le_antisymm hlt hend) rfl rfl rfl (List.prefix_nil.mp hstream)
  | some r =>
      rw [laterBytes_next hnext] at hstream hopen
      exact .active (t := ⟨r.message, r.items, [], []⟩) hnext
        (serves_request (hvalid r (List.mem_of_getElem? hnext))) rfl rfl rfl hstream hopen

/-- A turn that comes to its end has served its request. -/
theorem Conversation.turn (h : Conversation c acts past did written)
    (hserver : c.server = .ret none) :
    Conversation { c with server := handleClientTurn, served := c.served + 1 }
      acts (past ++ [did]) [] [] := by
  cases h.phase with
  -- a turn begins by reading, and has not ended
  | idle _ hidle _ _ _ =>
      rw [hidle] at hserver
      exact absurd hserver (handleClientTurn_ne fun _ _ hrecv => by cases hrecv)
  -- the request is read and answered; the connection goes on, so it was not rejected
  | @active r t hr hmeets hdid hout htodo hstream hopen =>
      rw [hserver] at hmeets
      obtain ⟨hinput, hnil, hitems, hreply, hkeeps⟩ := hmeets
      have hlt := (List.getElem?_eq_some_iff.mp hr).1
      have hkept : r.keeps did = true := by
        rw [← hdid]
        by_contra hk
        rw [Bool.eq_false_iff.mpr hk] at hkeeps
        cases hkeeps
      rw [hdid] at hitems hreply
      rw [hout] at hreply
      -- what has been written is the reply
      have hreplies : replies c.issued (past ++ [did]) = replies c.issued past ++ written := by
        rw [replies_turn (h.served ▸ hr), hreply]
      have hlen : (past ++ [did]).length = c.served + 1 := by
        rw [List.length_append, h.served, List.length_singleton]
      rw [hinput, Request.trailing_eq_nil hkept, List.nil_append, List.nil_append] at hstream hopen
      refine ⟨h.valid, hlen, hlt, h.finished_turn hr hitems hkept, ?_, List.nil_prefix, Or.inl rfl,
        ?_, ?_, Phase.start h.valid hlt hstream hopen⟩
      · rw [h.acts_eq, number_append_singleton (past ++ [did]), List.map_nil, List.append_nil]
      · intro hc
        rw [hreplies, List.append_nil]
        exact h.sent hc
      · rw [hreplies, List.append_nil]
        exact h.received
  -- a thread that is broken closes its connection instead
  | broken _ hquiet =>
      rw [hserver] at hquiet
      exact absurd rfl hquiet

/-! ## Every step keeps the conversation -/

/-- What a step adds to the accesses of its connection. -/
def Label.made (label : Label) (k : ℕ) : List (ℕ × Act) :=
  match label with
  | .accessed a => [(k, a)]
  | .silent => []
  | .nextTurn => []

/-- **Any step of the thread** keeps the conversation. -/
theorem Conversation.thread {ι : Type} {i : ι} (h : Conversation c acts past did written)
    {label : Label} {e : Endpoint} {sh sh' : Shared ι}
    (hstep : ThreadStep i c.closed c.toEndpoint sh label e sh') :
    ∃ past' did' written',
      Conversation (c.advance label e) (acts ++ label.made c.served) past' did' written' := by
  generalize hc : c.closed = closed at hstep
  generalize he : c.toEndpoint = e0 at hstep
  -- one case for each step of the thread; only `unlock` makes an access
  cases hstep with
  | recv n hserver hpos hmax hup =>
      subst he
      rw [Label.made, List.append_nil]
      exact ⟨_, _, _, h.recv hserver hpos hmax hup⟩
  | recvEnds hserver hclosed _ =>
      subst he
      rw [Label.made, List.append_nil]
      exact ⟨_, _, _, h.recvBreaks hserver (hc.trans hclosed) (Or.inr rfl)⟩
  | recvFails hserver hclosed =>
      subst he
      rw [Label.made, List.append_nil]
      exact ⟨_, _, _, h.recvBreaks hserver (hc.trans hclosed) (Or.inl rfl)⟩
  | send n hserver hlen =>
      subst he
      rw [Label.made, List.append_nil]
      exact ⟨_, _, h.send hserver hlen⟩
  | sendFails hserver hclosed =>
      subst he
      rw [Label.made, List.append_nil]
      exact ⟨_, _, _, h.sendBreaks hserver (hc.trans hclosed)⟩
  -- a lock alone changes nothing of the conversation
  | lock _ _ =>
      subst he
      rw [Label.made, List.append_nil]
      exact ⟨_, _, _, h⟩
  | unlock hserver _ =>
      subst he
      exact ⟨_, _, _, h.accessed hserver _⟩
  | turn hserver =>
      subst he
      rw [Label.made, List.append_nil]
      exact ⟨_, _, _, h.turn hserver⟩

end AsuAscend.MicroKV
