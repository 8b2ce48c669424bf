import Psar.Core.SendState
import Psar.Core.Proofs.LeaveProofs
import Psar.Library.Proofs.BufferProofs

/-!
# Proofs: the bytes of `SEND_STATE`

The encoder writes a list of fields and the decoder reads the same list of fields. The only bounds
are those of the `int` counters and of the size. The decoder inserts every request at the head of
the list, which turns the order around.
-/

namespace SendState

open Buffer (At Cursor Reads Room Writes Wrote layout)
open Connection (leBytes ofLeBytes length_leBytes ofLeBytes_leBytes)
open PageLock (CoreInfo LockType Request)

/-! ## Loops -/

/-- The loop ends if and only if the number of its turns is an `int`. -/
theorem forInt_from {α σ : Type} {body : σ → α → Option σ} (as : List α) {i : ℕ} (hi : i < 2 ^ 31)
    (s : σ) :
    forInt body as i s = if i + as.length < 2 ^ 31 then as.foldlM body s else none := by
  induction as generalizing i s with
  | nil => exact (if_pos hi).symm
  | cons a as ih =>
    rw [List.length_cons, List.foldlM_cons]
    show (body s a).bind _ = if _ then (body s a).bind _ else none
    by_cases hincr : i + 1 < 2 ^ 31
    · have hcount : i + (as.length + 1) = i + 1 + as.length := by omega
      rw [incrInt, if_pos hincr, hcount]
      cases body s a with
      | none => exact (ite_self _).symm
      | some s' => exact ih hincr s'
    · rw [incrInt, if_neg hincr, if_neg (by omega)]
      cases body s a with
      | none => rfl
      | some s' => rfl

theorem forInt_eq {α σ : Type} {body : σ → α → Option σ} (as : List α) (s : σ) :
    forInt body as 0 s = if as.length < 2 ^ 31 then as.foldlM body s else none := by
  rw [forInt_from as (by decide), Nat.zero_add]

/-- A loop whose turns all have a result. -/
theorem foldlM_some {α σ : Type} (f : σ → α → σ) (as : List α) (s : σ) :
    as.foldlM (fun s a => some (f s a)) s = some (as.foldl f s) := by
  induction as generalizing s with
  | nil => rfl
  | cons a as ih => exact ih (f s a)

/-! ## Fields -/

theorem ofLeBytes_eq {width n : ℕ} (h : n < 256 ^ width) : ofLeBytes (leBytes width n) = n := by
  rw [ofLeBytes_leBytes]
  exact Nat.mod_eq_of_lt h

theorem leBytes_ne_nil (width n : ℕ) : leBytes (width + 1) n ≠ [] :=
  List.cons_ne_nil _ _

theorem NodeId.host_ne_nil (n : NodeId) : n.host ≠ [] := by
  apply List.ne_nil_of_length_pos
  rw [n.length_host]
  decide

theorem lockTypeOfValue_value (m : LockType) :
    lockTypeOfValue (ofLeBytes (leBytes 4 (lockTypeValue m))) = some m := by
  cases m <;> rfl

theorem length_requestFields (r : Request NodeId) :
    (requestFields r).flatten.length = requestSize := by
  simp [requestFields, length_leBytes, r.who.length_host, requestSize]

theorem length_requestsFields (rs : List (Request NodeId)) :
    (requestsFields rs).flatten.length = 8 + rs.length * requestSize := by
  have hsum : (rs.flatMap requestFields).flatten.length = rs.length * requestSize := by
    induction rs with
    | nil => simp
    | cons r rs ih =>
      rw [List.flatMap_cons, List.flatten_append, List.length_append, ih, length_requestFields,
        List.length_cons, Nat.add_mul, Nat.one_mul, Nat.add_comm]
  rw [requestsFields, List.flatten_cons, List.length_append, length_leBytes, hsum]

theorem length_stateFields (core : ℕ → CoreInfo NodeId) (pages : List ℕ) :
    (stateFields core pages).flatten.length = dataSize core pages := by
  have hsum : (pages.flatMap (pageFields core)).flatten.length =
      (pages.map fun page => 16 + (core page).request.length * requestSize).sum := by
    induction pages with
    | nil => rfl
    | cons page pages ih =>
      rw [List.flatMap_cons, List.flatten_append, List.length_append, ih, pageFields,
        List.flatten_cons, List.length_append, length_leBytes, length_requestsFields,
        List.map_cons, List.sum_cons]
      omega
  rw [stateFields, List.flatten_cons, List.length_append, length_leBytes, hsum, dataSize]

/-! ## Writing -/

theorem writes_serializeRequest (r : Request NodeId) :
    Writes (fun c => serializeRequest c r) (requestFields r) := by
  have hnode : Writes (fun c => serializeNodeid c r.who)
      ([r.who.host] ++ [leBytes 4 r.who.port.toNat]) :=
    (Buffer.writes_put r.who.host_ne_nil).bind
      (Buffer.writes_put (leBytes_ne_nil 3 r.who.port.toNat))
  exact (Buffer.writes_put (leBytes_ne_nil 3 (lockTypeValue r.mode))).bind hnode

theorem writes_serializeRequests (c : CoreInfo NodeId) :
    Writes (fun cursor => serializeRequests cursor c) (requestsFields c.request) :=
  (Buffer.writes_foldlM writes_serializeRequest c.request).reserve
    (leBytes_ne_nil 7 c.request.length) (length_leBytes 8 c.request.length)

theorem writes_serializePage (core : ℕ → CoreInfo NodeId) (page : ℕ) :
    Writes (fun c => serializePage core c page) (pageFields core page) :=
  (Buffer.writes_put (leBytes_ne_nil 7 page)).bind (writes_serializeRequests (core page))

/-- The loop of `leave_core` and the number of pages before it. -/
theorem writes_state (core : ℕ → CoreInfo NodeId) (pages : List ℕ) :
    Writes (fun c => (c.put (leBytes 8 pages.length)).bind fun c =>
      pages.foldlM (serializePage core) c) (stateFields core pages) :=
  (Buffer.writes_put (leBytes_ne_nil 7 pages.length)).bind
    (Buffer.writes_foldlM (writes_serializePage core) pages)

/-! ## Reading -/

theorem reads_unserializeNodeid (n : NodeId) :
    Reads unserializeNodeid [n.host, leBytes 4 n.port.toNat] n := by
  have hport : BitVec.ofNat 32 (ofLeBytes (leBytes 4 n.port.toNat)) = n.port := by
    rw [ofLeBytes_eq n.port.isLt, BitVec.ofNat_toNat, BitVec.setWidth_eq]
  intro c hc
  have hfields : At c.mem c.pos ([n.host] ++ [leBytes 4 n.port.toNat]).flatten := hc
  obtain ⟨h1, h2⟩ := At.passed hfields
  unfold unserializeNodeid
  rw [Cursor.get_eq n.length_host h1]
  show ((c.passed [n.host]).get 4).bind _ = _
  rw [Cursor.get_eq (length_leBytes 4 n.port.toNat) h2]
  show (if h : n.host.length = 46 then _ else none) = _
  rw [dif_pos n.length_host, hport, ← Cursor.passed_append]
  rfl

theorem reads_unserializeRequest (r : Request NodeId) :
    Reads unserializeRequest (requestFields r) r := by
  intro c hc
  have hfields : At c.mem c.pos ([leBytes 4 (lockTypeValue r.mode)] ++
      [r.who.host, leBytes 4 r.who.port.toNat]).flatten := hc
  obtain ⟨h1, h2⟩ := At.passed hfields
  unfold unserializeRequest
  rw [Cursor.get_eq (length_leBytes 4 (lockTypeValue r.mode)) h1]
  show (unserializeNodeid (c.passed [leBytes 4 (lockTypeValue r.mode)])).bind _ = _
  rw [reads_unserializeNodeid r.who _ h2, ← Cursor.passed_append]
  show (lockTypeOfValue (ofLeBytes (leBytes 4 (lockTypeValue r.mode)))).map _ = _
  rw [lockTypeOfValue_value]
  rfl

/-- The loop of `unserialize_requests`. -/
theorem foldlM_unserializeRequest (rs : List (Request NodeId)) {ts : List ℕ}
    (hts : ts.length = rs.length) (dest : CoreInfo NodeId) {c : Cursor UInt8}
    (hc : At c.mem c.pos (rs.flatMap requestFields).flatten) :
    ts.foldlM (fun st _ => (unserializeRequest st.2).map fun req =>
        (PageLock.addRequest st.1 req.1.who req.1.mode, req.2)) (dest, c) =
      some (PageLock.unserializeRequests dest rs, c.passed (rs.flatMap requestFields)) := by
  induction rs generalizing ts dest c with
  | nil =>
    rw [List.length_eq_zero_iff.mp hts, List.flatMap_nil, Cursor.passed_nil]
    rfl
  | cons r rs ih =>
    cases ts with
    | nil => cases hts
    | cons t ts =>
      rw [List.flatMap_cons] at hc ⊢
      obtain ⟨h1, h2⟩ := hc.passed
      rw [List.foldlM_cons, reads_unserializeRequest r c h1, Cursor.passed_append]
      exact ih (Nat.succ.inj hts) (PageLock.addRequest dest r.who r.mode) h2

theorem unserializeRequests_eq (dest : CoreInfo NodeId) {rs : List (Request NodeId)}
    (hrs : rs.length < 2 ^ 64) {c : Cursor UInt8} (hc : At c.mem c.pos (requestsFields rs).flatten) :
    unserializeRequests dest c =
      if rs.length < 2 ^ 31 then
        some (PageLock.unserializeRequests dest rs, c.passed (requestsFields rs))
      else none := by
  have hfields : requestsFields rs = [leBytes 8 rs.length] ++ rs.flatMap requestFields := rfl
  rw [hfields] at hc ⊢
  obtain ⟨h1, h2⟩ := hc.passed
  have hcount : ofLeBytes (leBytes 8 rs.length) = rs.length := ofLeBytes_eq (by simpa using hrs)
  unfold unserializeRequests
  rw [Cursor.get_eq (length_leBytes 8 rs.length) h1, Option.bind_some, hcount, forInt_eq,
    List.length_range, foldlM_unserializeRequest rs List.length_range dest h2, Cursor.passed_append]

/-- The list of a page is read at the page. -/
def receivePage (core : ℕ → CoreInfo NodeId) (delegateCore : ℕ → CoreInfo NodeId) (page : ℕ) :
    ℕ → CoreInfo NodeId :=
  Function.update delegateCore page
    (PageLock.unserializeRequests (delegateCore page) (core page).request)

theorem unserializePage_eq (core : ℕ → CoreInfo NodeId) {st : Received} {page : ℕ}
    (hpage : page < 2 ^ 64) (hrs : (core page).request.length < 2 ^ 64)
    (hc : At st.cursor.mem st.cursor.pos (pageFields core page).flatten) :
    unserializePage st =
      if (core page).request.length < 2 ^ 31 then
        some ⟨receivePage core st.core page, st.cursor.passed (pageFields core page)⟩
      else none := by
  have hfields : pageFields core page = [leBytes 8 page] ++ requestsFields (core page).request := rfl
  rw [hfields] at hc ⊢
  obtain ⟨h1, h2⟩ := hc.passed
  have hindex : ofLeBytes (leBytes 8 page) = page := ofLeBytes_eq (by simpa using hpage)
  unfold unserializePage
  rw [Cursor.get_eq (length_leBytes 8 page) h1, Option.bind_some, hindex,
    unserializeRequests_eq _ hrs h2, Cursor.passed_append]
  split_ifs with hint
  · rfl
  · rfl

/-- The loop of `handle_SEND_STATE`. -/
theorem foldlM_unserializePage (core : ℕ → CoreInfo NodeId) {pages ts : List ℕ}
    (hts : ts.length = pages.length) (hpages : ∀ page ∈ pages, page < 2 ^ 64)
    (hrs : ∀ page ∈ pages, (core page).request.length < 2 ^ 64) {st : Received}
    (hc : At st.cursor.mem st.cursor.pos (pages.flatMap (pageFields core)).flatten) :
    ts.foldlM (fun st _ => unserializePage st) st =
      if ∀ page ∈ pages, (core page).request.length < 2 ^ 31 then
        some ⟨pages.foldl (receivePage core) st.core,
          st.cursor.passed (pages.flatMap (pageFields core))⟩
      else none := by
  induction pages generalizing ts st with
  | nil =>
    rw [List.length_eq_zero_iff.mp hts, if_pos (by simp), List.flatMap_nil, Cursor.passed_nil]
    rfl
  | cons page pages ih =>
    cases ts with
    | nil => cases hts
    | cons t ts =>
      rw [List.flatMap_cons] at hc ⊢
      obtain ⟨h1, h2⟩ := hc.passed
      rw [List.foldlM_cons, unserializePage_eq core (hpages page List.mem_cons_self)
        (hrs page List.mem_cons_self) h1]
      by_cases hint : (core page).request.length < 2 ^ 31
      · rw [if_pos hint]
        show List.foldlM _ _ ts = _
        rw [ih (Nat.succ.inj hts) (fun p hp => hpages p (List.mem_cons_of_mem _ hp))
          (fun p hp => hrs p (List.mem_cons_of_mem _ hp)) h2, Cursor.passed_append]
        simp only [List.mem_cons, forall_eq_or_imp, hint, true_and]
        rfl
      · rw [if_neg hint, if_neg]
        · rfl
        · intro hall
          exact hint (hall page List.mem_cons_self)

/-! ## `leave_core` -/

theorem foldl_filter {α : Type} (p : α → Bool) (as acc : List α) :
    as.foldl (fun acc a => if p a then acc ++ [a] else acc) acc = acc ++ as.filter p := by
  induction as generalizing acc with
  | nil => simp
  | cons a as ih =>
    rw [List.foldl_cons, ih]
    cases h : p a <;> simp [h]

theorem pagesLock_eq (me : NodeId) (coreSize : ℕ) (core : ℕ → CoreInfo NodeId) :
    pagesLock me coreSize core =
      if coreSize < 2 ^ 31 then some (held me coreSize core) else none := by
  unfold pagesLock
  rw [forInt_eq, foldlM_some, foldl_filter, List.length_range, List.nil_append]
  rfl

/-- The size is counted up request by request. -/
theorem foldl_requestSize (rs : List (Request NodeId)) (a : ℕ) :
    rs.foldl (fun size _ => (size + requestSize) % 2 ^ 64) (a % 2 ^ 64) =
      (a + rs.length * requestSize) % 2 ^ 64 := by
  induction rs generalizing a with
  | nil => simp
  | cons r rs ih =>
    have hcount : a + (rs.length + 1) * requestSize = a + requestSize + rs.length * requestSize := by
      rw [Nat.add_mul, Nat.one_mul]
      omega
    rw [List.foldl_cons, Nat.mod_add_mod, ih, List.length_cons, hcount]

theorem foldl_pageSize (core : ℕ → CoreInfo NodeId) (pages : List ℕ) (a : ℕ) :
    pages.foldl (fun size page => (core page).request.foldl
        (fun size _ => (size + requestSize) % 2 ^ 64) size) (a % 2 ^ 64) =
      (a + (pages.map fun page => (core page).request.length * requestSize).sum) % 2 ^ 64 := by
  induction pages generalizing a with
  | nil => simp
  | cons page pages ih =>
    rw [List.foldl_cons, foldl_requestSize, ih, List.map_cons, List.sum_cons, Nat.add_assoc]

theorem messageDataSize_eq (core : ℕ → CoreInfo NodeId) (pages : List ℕ) :
    messageDataSize core pages =
      if pages.length < 2 ^ 31 then some (dataSize core pages % 2 ^ 64) else none := by
  have hsum : 8 + pages.length * (8 + 8) +
      (pages.map fun page => (core page).request.length * requestSize).sum =
        dataSize core pages := by
    unfold dataSize
    rw [List.sum_map_add, List.map_const', List.sum_replicate]
    simp only [smul_eq_mul]
    omega
  unfold messageDataSize
  rw [forInt_eq, foldlM_some, foldl_pageSize, hsum]

theorem length_held_le (me : NodeId) (coreSize : ℕ) (core : ℕ → CoreInfo NodeId) :
    (held me coreSize core).length ≤ coreSize := by
  have h := List.length_filter_le (fun i => nodeEqual (core i).haveToken me) (List.range coreSize)
  rw [List.length_range] at h
  exact h

section Transfer

variable {garbage : ℕ → UInt8} {me : NodeId} {coreSize : ℕ} {core delegateCore : ℕ → CoreInfo NodeId}

/-- What `leave_core` sends. -/
structure Encoded (me : NodeId) (coreSize : ℕ) (core : ℕ → CoreInfo NodeId) (sent : Sent) :
    Prop where
  pages : coreSize < 2 ^ 31
  size : sizeofMessage + dataSize core (held me coreSize core) < 2 ^ 64
  messageSize : sent.messageSize = sizeofMessage + dataSize core (held me coreSize core)
  pos : sent.cursor.pos = sizeofMessage + dataSize core (held me coreSize core)
  log : sent.cursor.log.Perm (layout sizeofMessage (stateFields core (held me coreSize core)))
  message : At sent.message sizeofMessage (stateFields core (held me coreSize core)).flatten

/-- The buffer of `leave_core`. -/
def buffer (garbage : ℕ → UInt8) (n : ℕ) : List UInt8 :=
  Buffer.overwrite ((List.range n).map garbage) 0 (leBytes 8 sendStateType)

theorem leaveCore_eq (hpages : coreSize < 2 ^ 31) :
    leaveCore garbage me coreSize core =
      ((Cursor.put ⟨buffer garbage
          ((sizeofMessage + dataSize core (held me coreSize core)) % 2 ^ 64), sizeofMessage, []⟩
        (leBytes 8 (held me coreSize core).length)).bind fun cursor =>
          (held me coreSize core).foldlM (serializePage core) cursor).map fun cursor =>
        ⟨(sizeofMessage + dataSize core (held me coreSize core)) % 2 ^ 64, cursor,
          sendMessage me cursor.mem⟩ := by
  have hlen := Nat.lt_of_le_of_lt (length_held_le me coreSize core) hpages
  unfold leaveCore
  rw [pagesLock_eq, if_pos hpages, Option.bind_some, messageDataSize_eq, if_pos hlen,
    Option.bind_some]
  simp only [Nat.add_mod_mod, forInt_eq, if_pos hlen, Option.map_bind]
  rfl

theorem length_buffer (n : ℕ) : (buffer garbage n).length = max 8 n := by
  simp only [buffer, Buffer.overwrite, List.length_append, List.length_take, List.length_drop,
    List.length_map, List.length_range, length_leBytes]
  omega

theorem At.sendMessage {mem : List UInt8} {bs : List UInt8} (h : At mem sizeofMessage bs) :
    At (sendMessage me mem) sizeofMessage bs := by
  have hhost : 8 + me.host.length ≤ sizeofMessage := by
    rw [me.length_host]
    decide
  have hport : 56 + (leBytes 4 me.port.toNat).length ≤ sizeofMessage := by
    rw [length_leBytes]
    decide
  exact (h.overwrite_before hhost).overwrite_before hport

theorem encoded_leaveCore {sent : Sent} (h : leaveCore garbage me coreSize core = some sent) :
    Encoded me coreSize core sent := by
  have hpages : coreSize < 2 ^ 31 := by
    by_contra hnot
    rw [leaveCore, pagesLock_eq, if_neg hnot] at h
    cases h
  rw [leaveCore_eq hpages] at h
  obtain ⟨cursor, hcursor, rfl⟩ := Option.map_eq_some_iff.mp h
  have hw := (writes_state core (held me coreSize core)).wrote _ cursor hcursor
  -- the fields only fit into the buffer if its size has not wrapped around
  have hroom := hw.room
  have hpos := hw.pos
  have hlog := hw.log
  have hmem := hw.mem
  rw [length_stateFields] at hroom hpos
  unfold Room at hroom
  rw [length_buffer] at hroom
  have hdata : 8 ≤ dataSize core (held me coreSize core) := Nat.le_add_right _ _
  have hle := Nat.mod_le (sizeofMessage + dataSize core (held me coreSize core)) (2 ^ 64)
  have hlt := Nat.mod_lt (sizeofMessage + dataSize core (held me coreSize core))
    (Nat.two_pow_pos 64)
  have hsize : (sizeofMessage + dataSize core (held me coreSize core)) % 2 ^ 64 =
      sizeofMessage + dataSize core (held me coreSize core) := by
    unfold sizeofMessage at *
    dsimp only at hroom
    omega
  rw [hsize] at hmem hlt
  refine ⟨hpages, hlt, hsize, hpos, hlog, ?_⟩
  apply At.sendMessage
  rw [hmem]
  apply Buffer.at_overwrite
  rw [length_stateFields]
  show _ ≤ (buffer garbage _).length
  rw [length_buffer]
  exact Nat.le_max_right _ _

theorem exists_leaveCore (hpages : coreSize < 2 ^ 31)
    (hsize : sizeofMessage + dataSize core (held me coreSize core) < 2 ^ 64) :
    ∃ sent, leaveCore garbage me coreSize core = some sent := by
  rw [leaveCore_eq hpages, Nat.mod_eq_of_lt hsize]
  obtain ⟨cursor, hcursor⟩ := (writes_state core (held me coreSize core)).defined
    ⟨buffer garbage (sizeofMessage + dataSize core (held me coreSize core)), sizeofMessage, []⟩ (by
      unfold Room
      rw [length_stateFields, length_buffer]
      exact le_max_of_le_right (Nat.le_max_right _ _))
  rw [hcursor]
  exact ⟨_, rfl⟩

/-! ## `handle_SEND_STATE` -/

theorem Encoded.length_held {sent : Sent} (h : Encoded me coreSize core sent) :
    (held me coreSize core).length < 2 ^ 64 :=
  Nat.lt_of_le_of_lt (length_held_le me coreSize core) (Nat.lt_trans h.pages (by decide))

theorem Encoded.length_request {sent : Sent} (h : Encoded me coreSize core sent) {page : ℕ}
    (hpage : page ∈ held me coreSize core) : (core page).request.length < 2 ^ 64 := by
  have hsize := h.size
  have hle : 16 + (core page).request.length * requestSize ≤
      ((held me coreSize core).map fun page =>
        16 + (core page).request.length * requestSize).sum :=
    List.single_le_sum (fun _ _ => Nat.zero_le _) _ (List.mem_map_of_mem hpage)
  unfold dataSize requestSize at *
  omega

theorem lt_of_mem_held {page : ℕ} (hpage : page ∈ held me coreSize core) : page < coreSize :=
  List.mem_range.mp (List.mem_of_mem_filter hpage)

theorem nodup_held (me : NodeId) (coreSize : ℕ) (core : ℕ → CoreInfo NodeId) :
    (held me coreSize core).Nodup :=
  List.nodup_range.filter _

/-- The delegate reads the message if and only if every list has fewer than `2 ^ 31` requests. -/
theorem handleSendState_eq {sent : Sent} (h : Encoded me coreSize core sent) :
    handleSendState delegateCore sent.message =
      if ∀ page ∈ held me coreSize core, (core page).request.length < 2 ^ 31 then
        some ⟨(held me coreSize core).foldl (receivePage core) delegateCore,
          Cursor.passed ⟨sent.message, sizeofMessage, []⟩
            (stateFields core (held me coreSize core))⟩
      else none := by
  have hmessage := h.message
  have hfields : stateFields core (held me coreSize core) =
      [leBytes 8 (held me coreSize core).length] ++
        (held me coreSize core).flatMap (pageFields core) := rfl
  rw [hfields] at hmessage ⊢
  obtain ⟨h1, h2⟩ := At.passed (c := ⟨sent.message, sizeofMessage, []⟩) hmessage
  have hcount : ofLeBytes (leBytes 8 (held me coreSize core).length) =
      (held me coreSize core).length := ofLeBytes_eq (by simpa using h.length_held)
  unfold handleSendState
  rw [Cursor.get_eq (length_leBytes 8 _) h1, Option.bind_some, hcount,
    foldlM_unserializePage core List.length_range
      (fun page hpage => Nat.lt_trans (lt_of_mem_held hpage) (Nat.lt_trans h.pages (by decide)))
      (fun page hpage => h.length_request hpage) h2, Cursor.passed_append]

/-- Every page of the message gets the list of the message, the others stay. -/
theorem foldl_receivePage (core delegateCore : ℕ → CoreInfo NodeId) {pages : List ℕ}
    (hnodup : pages.Nodup) (page : ℕ) :
    pages.foldl (receivePage core) delegateCore page =
      if page ∈ pages then
        PageLock.unserializeRequests (delegateCore page) (core page).request
      else delegateCore page := by
  induction pages generalizing delegateCore with
  | nil => rfl
  | cons p pages ih =>
    obtain ⟨hnot, hnodup⟩ := List.nodup_cons.mp hnodup
    rw [List.foldl_cons, ih _ hnodup]
    by_cases hp : page = p
    · subst hp
      rw [if_neg hnot, if_pos List.mem_cons_self, receivePage, Function.update_self]
    · simp only [List.mem_cons, hp, false_or, receivePage, Function.update_of_ne hp]

/-- The transfer takes place if and only if nothing overflows. -/
theorem transfer_iff :
    (∃ sent received, leaveCore garbage me coreSize core = some sent ∧
      handleSendState delegateCore sent.message = some received) ↔ Fits me coreSize core := by
  constructor
  · rintro ⟨sent, received, hsent, hreceived⟩
    have henc := encoded_leaveCore hsent
    refine ⟨henc.pages, ?_, henc.size⟩
    by_contra hnot
    rw [handleSendState_eq henc, if_neg hnot] at hreceived
    cases hreceived
  · intro hfits
    obtain ⟨sent, hsent⟩ := exists_leaveCore hfits.pages hfits.size
    exact ⟨sent, _, hsent,
      (handleSendState_eq (encoded_leaveCore hsent)).trans (if_pos hfits.requests)⟩

/-- What the delegate has received. -/
theorem received_eq {sent : Sent} {received : Received} (h : Encoded me coreSize core sent)
    (hreceived : handleSendState delegateCore sent.message = some received) :
    (∀ page, received.core page =
      if page ∈ held me coreSize core then
        PageLock.unserializeRequests (delegateCore page) (core page).request
      else delegateCore page) ∧
    received.cursor = Cursor.passed ⟨sent.message, sizeofMessage, []⟩
      (stateFields core (held me coreSize core)) := by
  rw [handleSendState_eq h] at hreceived
  split_ifs at hreceived with hall
  cases hreceived
  exact ⟨foldl_receivePage core delegateCore (nodup_held me coreSize core), rfl⟩

/-! ## The size -/

/-- `SEND_STATE`: the size that is computed is the number of bytes written, and the delegate reads
these bytes and every field where it was written, if and only if no `int` counter and not the size
overflows. -/
theorem state_message_exact_iff (garbage : ℕ → UInt8) (me : NodeId) (coreSize : ℕ)
    (core delegateCore : ℕ → CoreInfo NodeId) :
    Exact garbage me coreSize core delegateCore ↔ Fits me coreSize core := by
  rw [← @transfer_iff garbage me coreSize core delegateCore]
  constructor
  · rintro ⟨sent, hsent, -, -, received, hreceived, -⟩
    exact ⟨sent, received, hsent, hreceived⟩
  · rintro ⟨sent, received, hsent, hreceived⟩
    have henc := encoded_leaveCore hsent
    obtain ⟨-, hcursor⟩ := received_eq henc hreceived
    refine ⟨sent, hsent, ?_, ?_, received, hreceived, ?_, ?_⟩
    · rw [henc.messageSize, (henc.log.map _).sum_eq, Buffer.sum_layout, length_stateFields]
    · rw [henc.messageSize, henc.pos]
    · rw [hcursor, henc.pos, ← length_stateFields]
      rfl
    · rw [hcursor]
      exact henc.log.symm

/-! ## The order -/

/-- A delegate without requests gets the lists of the leaver turned around. -/
theorem received_request (hempty : ∀ page ∈ held me coreSize core, (delegateCore page).request = [])
    {sent : Sent} {received : Received} (hsent : leaveCore garbage me coreSize core = some sent)
    (hreceived : handleSendState delegateCore sent.message = some received) {page : ℕ}
    (hpage : page ∈ held me coreSize core) :
    (received.core page).request = (core page).request.reverse := by
  obtain ⟨hcore, -⟩ := received_eq (encoded_leaveCore hsent) hreceived
  rw [hcore page, if_pos hpage, PageLock.unserializeRequests_eq]
  show (core page).request.reverse ++ (delegateCore page).request = _
  rw [hempty page hpage, List.append_nil]

/-- `SEND_STATE`: a delegate without requests gets the request lists of the leaver in their order if
and only if nothing overflows and every list reads the same from both ends. -/
theorem state_transfer_order_iff
    (hempty : ∀ page ∈ held me coreSize core, (delegateCore page).request = []) :
    KeepsOrder garbage me coreSize core delegateCore ↔
      Fits me coreSize core ∧ ∀ page ∈ held me coreSize core,
        List.Forall₂ sameRequest (core page).request.reverse (core page).request := by
  constructor
  · rintro ⟨sent, received, hsent, hreceived, hheld, -⟩
    refine ⟨transfer_iff.mp ⟨sent, received, hsent, hreceived⟩, ?_⟩
    intro page hpage
    rw [← received_request hempty hsent hreceived hpage]
    exact hheld page hpage
  · rintro ⟨hfits, hpalindrome⟩
    obtain ⟨sent, received, hsent, hreceived⟩ := transfer_iff.mpr hfits
    refine ⟨sent, received, hsent, hreceived, ?_, ?_⟩
    · intro page hpage
      rw [received_request hempty hsent hreceived hpage]
      exact hpalindrome page hpage
    · intro page hpage
      obtain ⟨hcore, -⟩ := received_eq (encoded_leaveCore hsent) hreceived
      rw [hcore page, if_neg hpage]

end Transfer

/-! ## One page -/

def nodeAt (n : UInt8) : NodeId := ⟨n :: List.replicate 45 0, 7777, by simp⟩

/-- The page of a node that has the token, with a request list. -/
def pageWith (rs : List (Request NodeId)) : CoreInfo NodeId :=
  { PageLock.initCore (nodeAt 1) with request := rs }

theorem held_pageWith (rs : List (Request NodeId)) :
    held (nodeAt 1) 1 (fun _ => pageWith rs) = [0] := rfl

theorem fits_pageWith {rs : List (Request NodeId)} (hrs : rs.length < 2 ^ 31) :
    Fits (nodeAt 1) 1 fun _ => pageWith rs := by
  refine ⟨by decide, ?_, ?_⟩
  · intro page _
    exact hrs
  · rw [held_pageWith]
    show 64 + (8 + (16 + rs.length * 54 + 0)) < 2 ^ 64
    omega

/-- A list of more than `2 ^ 31` requests: `i` overflows at the delegate. -/
theorem state_message_too_long :
    ¬ Exact (fun _ => 0) (nodeAt 1) 1
      (fun _ => pageWith (List.replicate (2 ^ 31 + 1) ⟨.read, nodeAt 2⟩))
      fun _ => pageWith [] := by
  rintro ⟨sent, hsent, -, -, received, hreceived, -⟩
  have hfits := transfer_iff.mp ⟨sent, received, hsent, hreceived⟩
  have hlt := hfits.requests 0 (by rw [held_pageWith]; exact List.mem_cons_self)
  have hlen : (pageWith (List.replicate (2 ^ 31 + 1) ⟨.read, nodeAt 2⟩)).request.length =
      2 ^ 31 + 1 := List.length_replicate
  omega

/-- Two pages, one of them with three requests that read the same from both ends. -/
theorem state_transfer_order_iff_palindrome :
    KeepsOrder (fun _ => 0) (nodeAt 1) 2
      (fun page => pageWith (if page = 0 then
        [⟨.write, nodeAt 2⟩, ⟨.read, nodeAt 3⟩, ⟨.write, nodeAt 2⟩] else [⟨.read, nodeAt 4⟩]))
      fun _ => pageWith [] := by
  refine (state_transfer_order_iff fun _ _ => rfl).mpr ⟨⟨by decide, ?_, by decide⟩, ?_⟩
  · intro page _
    by_cases hpage : page = 0 <;> simp [pageWith, hpage]
  · intro page _
    by_cases hpage : page = 0
    · subst hpage
      exact List.Forall₂.cons ⟨rfl, rfl⟩ (List.Forall₂.cons ⟨rfl, rfl⟩
        (List.Forall₂.cons ⟨rfl, rfl⟩ List.Forall₂.nil))
    · simp only [pageWith, hpage, if_false]
      exact List.Forall₂.cons ⟨rfl, rfl⟩ List.Forall₂.nil

/-- A writer and a reader change places. -/
theorem state_transfer_reversed :
    Fits (nodeAt 1) 1 (fun _ => pageWith [⟨.write, nodeAt 2⟩, ⟨.read, nodeAt 3⟩]) ∧
      ¬ KeepsOrder (fun _ => 0) (nodeAt 1) 1
        (fun _ => pageWith [⟨.write, nodeAt 2⟩, ⟨.read, nodeAt 3⟩]) fun _ => pageWith [] := by
  refine ⟨fits_pageWith (by decide), ?_⟩
  rintro ⟨sent, received, hsent, hreceived, hheld, -⟩
  have hpage : 0 ∈ held (nodeAt 1) 1
      (fun _ => pageWith [⟨.write, nodeAt 2⟩, ⟨.read, nodeAt 3⟩]) := by
    rw [held_pageWith]
    exact List.mem_cons_self
  have horder := hheld 0 hpage
  rw [received_request (fun _ _ => rfl) hsent hreceived hpage] at horder
  cases horder with
  | cons hfirst _ => cases hfirst.1

end SendState
