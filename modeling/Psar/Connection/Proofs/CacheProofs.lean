import Psar.Connection.Cache
import Psar.Library.Proofs.NetworkProofs

/-!
# Proofs: the cache of connections

The cache has one entry for a node in every run. It routes to the right peer in the runs in which a
number does not become a connection to a node while it is still taken for a connection to another.
-/

namespace ConnectionCache

variable {Node Thread : Type}

/-! ## The functions on `connection_buffer` -/

section Buffer

variable [DecidableEq Node] {buffer : List (Node × ℕ)} {node : Node} {socket : ℕ}

theorem mem_of_findConnection {sock : ℕ} (h : findConnection buffer node = some sock) :
    (node, sock) ∈ buffer := by
  obtain ⟨x, hx, rfl⟩ := Option.map_eq_some_iff.mp h
  have hnode : x.1 = node := by simpa using List.find?_some hx
  rw [← hnode]
  exact List.mem_of_find?_eq_some hx

theorem notMem_of_findConnection (h : findConnection buffer node = none) :
    node ∉ buffer.map Prod.fst := by
  intro hnode
  obtain ⟨x, hx, rfl⟩ := List.mem_map.mp hnode
  have hnone := List.find?_eq_none.mp (Option.map_eq_none_iff.mp h) x hx
  simp at hnone

/-- The cache after `add_connection` has one entry more at most. -/
theorem addConnection_spec (buffer : List (Node × ℕ)) (node : Node) (socket : ℕ) :
    (∀ x ∈ (addConnection buffer node socket).1, x ∈ buffer ∨ x = (node, socket)) ∧
      (node, (addConnection buffer node socket).2) ∈ (addConnection buffer node socket).1 := by
  unfold addConnection
  cases h : findConnection buffer node with
  | some sock => exact ⟨fun x hx => Or.inl hx, mem_of_findConnection h⟩
  | none =>
    refine ⟨?_, by simp⟩
    intro x hx
    simpa using List.mem_append.mp hx

theorem addConnection_nodup (h : (buffer.map Prod.fst).Nodup) :
    ((addConnection buffer node socket).1.map Prod.fst).Nodup := by
  unfold addConnection
  cases hfind : findConnection buffer node with
  | some sock => exact h
  | none =>
    have hnode := notMem_of_findConnection hfind
    simp only [List.map_append, List.map_cons, List.map_nil]
    rw [List.nodup_append]
    refine ⟨h, List.nodup_singleton node, ?_⟩
    rintro a ha b hb rfl
    rw [List.mem_singleton.mp hb] at ha
    exact hnode ha

/-- `replace_socket` changes the descriptor of the node, or nothing. -/
theorem replaceSocket_spec (sock : ℕ → Sock Node) (node : Node) (socket : ℕ)
    (buffer : List (Node × ℕ)) :
    (∀ x ∈ (replaceSocket sock node socket buffer).1, x ∈ buffer ∨ x = (node, socket)) ∧
      ((replaceSocket sock node socket buffer).2 = socket ∨
        (node, (replaceSocket sock node socket buffer).2) ∈ buffer) ∧
      (replaceSocket sock node socket buffer).1.map Prod.fst = buffer.map Prod.fst := by
  induction buffer with
  | nil => simp [replaceSocket]
  | cons x buffer ih =>
    unfold replaceSocket
    split
    · rename_i hx
      split
      · refine ⟨?_, Or.inl rfl, rfl⟩
        intro y hy
        rcases List.mem_cons.mp hy with rfl | hy
        · exact Or.inr (by rw [hx])
        · exact Or.inl (List.mem_cons_of_mem x hy)
      · refine ⟨fun y hy => Or.inl hy, Or.inr ?_, rfl⟩
        rw [← hx]
        exact List.mem_cons_self
    · obtain ⟨hmem, hres, hnodes⟩ := ih
      refine ⟨?_, hres.imp_right (List.mem_cons_of_mem x), ?_⟩
      · intro y hy
        rcases List.mem_cons.mp hy with rfl | hy
        · exact Or.inl List.mem_cons_self
        · exact (hmem y hy).imp_left (List.mem_cons_of_mem x)
      · simp only [List.map_cons, hnodes]

theorem cacheConnection_spec (sock : ℕ → Sock Node) (buffer : List (Node × ℕ)) (node : Node)
    (found : Bool) (socket : ℕ) :
    (∀ x ∈ (cacheConnection sock buffer node found socket).1, x ∈ buffer ∨ x = (node, socket)) ∧
      ((cacheConnection sock buffer node found socket).2 = socket ∨
        (node, (cacheConnection sock buffer node found socket).2) ∈ buffer) ∧
      ((buffer.map Prod.fst).Nodup →
        ((cacheConnection sock buffer node found socket).1.map Prod.fst).Nodup) := by
  cases found with
  | true =>
    obtain ⟨hmem, hres, hnodes⟩ := replaceSocket_spec sock node socket buffer
    refine ⟨hmem, hres, ?_⟩
    show _ → ((replaceSocket sock node socket buffer).1.map Prod.fst).Nodup
    rw [hnodes]
    exact id
  | false =>
    obtain ⟨hmem, hres⟩ := addConnection_spec buffer node socket
    refine ⟨hmem, ?_, addConnection_nodup⟩
    rcases hmem _ hres with hres | hres
    · exact Or.inr hres
    · exact Or.inl (Prod.mk.inj hres).2

end Buffer

variable {s s' : State Node Thread} {t : Thread} {dest : Node} {fd : ℕ}

/-! ## What keeps the cache routed -/

/-- `fd` is not a connection to another node than `node`. -/
theorem Routed.of_refers (h : Routed s) {node : Node} (hr : s.Refers node fd) :
    ∀ peer, s.sock fd = .connected peer → peer = node := h node fd hr

/-- Neither the descriptors nor what they are taken for change. -/
theorem Routed.mono (h : Routed s)
    (hsock : ∀ fd peer, s'.sock fd = .connected peer → s.sock fd = .connected peer)
    (hrefers : ∀ node fd, s'.Refers node fd →
      s.Refers node fd ∨ ∀ peer, s.sock fd = .connected peer → peer = node) : Routed s' := by
  intro node fd hr peer hp
  rcases hrefers node fd hr with hr | hagree
  · exact h node fd hr peer (hsock fd peer hp)
  · exact hagree peer (hsock fd peer hp)

theorem Routed.update (h : Routed s) {x : Sock Node} (hx : ∀ peer, x ≠ .connected peer) :
    Routed { s with sock := Function.update s.sock fd x } := by
  refine h.mono ?_ fun _ _ hr => Or.inl hr
  intro fd' peer hp
  by_cases hfd : fd' = fd
  · subst hfd
    simp only [Function.update_self] at hp
    exact absurd hp (hx peer)
  · simpa only [Function.update_of_ne hfd] using hp

theorem Routed.close (h : Routed s) : Routed (s.close fd) := h.update (by simp)

/-- A number becomes a connection to a node. -/
theorem Routed.connected (h : Routed s) {peer : Node}
    (hok : ∀ node, s.Refers node fd → node = peer) :
    Routed { s with sock := Function.update s.sock fd (.connected peer) } := by
  intro node fd' hr peer' hp
  by_cases hfd : fd' = fd
  · subst hfd
    simp only [Function.update_self] at hp
    cases hp
    exact (hok node hr).symm
  · simp only [Function.update_of_ne hfd] at hp
    exact h node fd' hr peer' hp

/-- The cache takes over what a descriptor is taken for already. -/
theorem Routed.buffer (h : Routed s) {buffer : List (Node × ℕ)}
    (hbuffer : ∀ x ∈ buffer, s.Refers x.1 x.2) : Routed { s with buffer := buffer } := by
  refine h.mono (fun _ _ hp => hp) ?_
  intro node fd hr
  left
  rcases hr with hr | hr | hr
  · exact hbuffer _ hr
  · exact Or.inr (Or.inl hr)
  · exact Or.inr (Or.inr hr)

theorem Routed.server (h : Routed s) {server : Server Node}
    (hserver : ∀ fd node, server = .received fd node →
      ∀ peer, s.sock fd = .connected peer → peer = node) : Routed { s with server := server } := by
  refine h.mono (fun _ _ hp => hp) ?_
  intro node fd hr
  rcases hr with hr | hr | hr
  · exact Or.inl (Or.inl hr)
  · exact Or.inl (Or.inr (Or.inl hr))
  · exact Or.inr (hserver fd node hr)

section Threads

variable [DecidableEq Thread]

theorem refers_goto {stage : Stage} {node : Node} (h : (s.goto t dest stage).Refers node fd) :
    s.Refers node fd ∨ (dest = node ∧ stage.keeps = some fd) := by
  rcases h with h | ⟨u, c, hc, hdest, hkeeps⟩ | h
  · exact Or.inl (Or.inl h)
  · by_cases hu : u = t
    · subst hu
      simp only [State.goto, Function.update_self] at hc
      cases hc
      exact Or.inr ⟨hdest, hkeeps⟩
    · simp only [State.goto, Function.update_of_ne hu] at hc
      exact Or.inl (Or.inr (Or.inl ⟨u, c, hc, hdest, hkeeps⟩))
  · exact Or.inl (Or.inr (Or.inr h))

theorem refers_return {node : Node} (h : (s.return_ t).Refers node fd) : s.Refers node fd := by
  rcases h with h | ⟨u, c, hc, hdest, hkeeps⟩ | h
  · exact Or.inl h
  · by_cases hu : u = t
    · subst hu
      simp only [State.return_, Function.update_self] at hc
      cases hc
    · simp only [State.return_, Function.update_of_ne hu] at hc
      exact Or.inr (Or.inl ⟨u, c, hc, hdest, hkeeps⟩)
  · exact Or.inr (Or.inr h)

theorem Routed.goto (h : Routed s) {stage : Stage}
    (hkeeps : ∀ fd, stage.keeps = some fd → ∀ peer, s.sock fd = .connected peer → peer = dest) :
    Routed (s.goto t dest stage) := by
  refine h.mono (fun _ _ hp => hp) ?_
  intro node fd hr
  rcases refers_goto hr with hr | ⟨rfl, hfd⟩
  · exact Or.inl hr
  · exact Or.inr (hkeeps fd hfd)

/-- The thread keeps a descriptor that it had before. -/
theorem Routed.goto_same (h : Routed s) {c : Send Node} (hc : s.send t = some c) {stage : Stage}
    (hkeeps : ∀ fd, stage.keeps = some fd → c.stage.keeps = some fd) :
    Routed (s.goto t c.dest stage) :=
  h.goto fun _ hfd => h.of_refers (Or.inr (Or.inl ⟨t, c, hc, rfl, hkeeps _ hfd⟩))

theorem Routed.return_ (h : Routed s) : Routed (s.return_ t) :=
  h.mono (fun _ _ hp => hp) fun _ _ hr => Or.inl (refers_return hr)

/-! ## Steps -/

theorem Routed.writeFails (h : Routed s) {first : Bool} : Routed (writeFails s t dest fd first) := by
  unfold ConnectionCache.writeFails
  have hclose : Routed { s.close fd with lockSend := none } := h.close
  split
  · exact hclose.goto fun _ hfd => by cases hfd
  · exact hclose.return_

variable [DecidableEq Node]

/-- The steps of a thread. -/
theorem routed_sendStep (h : Routed s) {c : Send Node} (hc : s.send t = some c)
    {e : Event Node Thread} (hok : reuseOk s e) (he : e.thread = some t)
    (hstep : sendStep s t c e = some s') : Routed s' := by
  cases e with
  | lock u =>
    simp only [sendStep] at hstep
    split at hstep
    · rename_i fd first hstage _
      cases hstep
      exact h.goto_same hc fun _ hfd => by rw [hstage]; exact hfd
    · cases hstep
  | write u ok =>
    cases ok with
    | true =>
      simp only [sendStep] at hstep
      split at hstep
      · rename_i fd first hstage
        split at hstep
        · cases hstep
          exact h.goto_same hc fun _ hfd => by rw [hstage]; exact hfd
        · cases hstep
      · split at hstep
        · cases hstep
          exact h.return_
        · cases hstep
      · cases hstep
    | false =>
      simp only [sendStep] at hstep
      split at hstep
      · cases hstep
        exact h.writeFails
      · cases hstep
        exact h.writeFails
      · cases hstep
  | socket u sockfd =>
    cases sockfd with
    | some sockfd =>
      simp only [sendStep] at hstep
      split at hstep
      · cases hstep
        exact (h.update (by simp)).goto fun _ hfd => by cases hfd
      · cases hstep
    | none =>
      simp only [sendStep] at hstep
      split at hstep
      · cases hstep
        exact h.return_
      · cases hstep
  | badAddress u =>
    simp only [sendStep] at hstep
    split at hstep
    · cases hstep
      exact h.return_
    · cases hstep
  | connect u ok =>
    cases ok with
    | true =>
      cases he
      simp only [sendStep] at hstep
      split at hstep
      · rename_i found sockfd hstage
        split at hstep
        · cases hstep
          refine (h.connected (hok c hc found sockfd hstage)).goto ?_
          intro fd hfd peer hp
          cases hfd
          simp only [Function.update_self] at hp
          cases hp
          rfl
        · cases hstep
      · cases hstep
    | false =>
      simp only [sendStep] at hstep
      split at hstep
      · cases hstep
        exact h.close.return_
      · cases hstep
  | epollCtl u ok =>
    cases ok with
    | true =>
      simp only [sendStep] at hstep
      split at hstep
      · rename_i found sockfd hstage
        cases hstep
        exact h.goto_same hc fun _ hfd => by rw [hstage]; exact hfd
      · cases hstep
    | false =>
      simp only [sendStep] at hstep
      split at hstep
      · cases hstep
        exact h.close.return_
      · cases hstep
  | cache u =>
    simp only [sendStep] at hstep
    split at hstep
    · rename_i found sockfd hstage
      cases hstep
      -- the thread keeps `sockfd`, or what the cache has for the node
      have hkept : s.Refers c.dest sockfd :=
        Or.inr (Or.inl ⟨t, c, hc, rfl, by rw [hstage]; rfl⟩)
      obtain ⟨hmem, hres, -⟩ := cacheConnection_spec s.sock s.buffer c.dest found sockfd
      have hbuffer : ∀ x ∈ (cacheConnection s.sock s.buffer c.dest found sockfd).1,
          s.Refers x.1 x.2 := by
        intro x hx
        rcases hmem x hx with hx | rfl
        · exact Or.inl hx
        · exact hkept
      have hresult : s.Refers c.dest (cacheConnection s.sock s.buffer c.dest found sockfd).2 := by
        rcases hres with hres | hres
        · rw [hres]
          exact hkept
        · exact Or.inl hres
      refine (h.buffer hbuffer).goto ?_
      intro fd hfd
      have hfd' : (cacheConnection s.sock s.buffer c.dest found sockfd).2 = fd := by
        split at hfd <;> exact Option.some.inj hfd
      rw [← hfd']
      exact h.of_refers hresult
    · cases hstep
  | close u =>
    simp only [sendStep] at hstep
    split at hstep
    · rename_i fd sockfd hstage
      cases hstep
      exact h.close.goto_same hc fun _ hfd => by rw [hstage]; exact hfd
    · cases hstep
  | _ => cases he

theorem routed_step (h : Routed s) {e : Event Node Thread} (hok : reuseOk s e)
    (hstep : step s e = some s') : Routed s' := by
  have hthread : ∀ t, e.thread = some t → e.thread.bind (fun t => (s.send t).bind fun c =>
      sendStep s t c e) = some s' → Routed s' := by
    intro t ht hstep
    rw [ht, Option.bind_some] at hstep
    obtain ⟨c, hc, hstep'⟩ := Option.bind_eq_some_iff.mp hstep
    exact routed_sendStep h hc hok ht hstep'
  cases e with
  | send t dest =>
    simp only [step] at hstep
    split at hstep
    · cases hstep
      apply h.goto
      intro fd hfd
      split at hfd
      · rename_i sock hfind
        cases hfd
        exact h.of_refers (Or.inl (mem_of_findConnection hfind))
      · cases hfd
    · cases hstep
  | accept fd peer =>
    simp only [step] at hstep
    split at hstep
    · cases hstep
      exact h.connected hok
    · cases hstep
  | readFail fd =>
    simp only [step] at hstep
    split at hstep
    · cases hstep
      exact h.server (by simp)
    · cases hstep
  | serverClose =>
    simp only [step] at hstep
    split at hstep
    · cases hstep
      exact h.close.server (by simp)
    · cases hstep
  | receive fd =>
    simp only [step] at hstep
    split at hstep
    · rename_i sender _ hsock
      cases hstep
      apply h.server
      rintro fd' node ⟨⟩ peer hp
      rw [hsock] at hp
      cases hp
      rfl
    · cases hstep
  | add =>
    simp only [step] at hstep
    split at hstep
    · rename_i fd sender hserver
      cases hstep
      obtain ⟨hmem, -⟩ := addConnection_spec s.buffer sender fd
      refine (h.buffer fun x hx => ?_).server (by simp)
      rcases hmem x hx with hx | rfl
      · exact Or.inl hx
      · exact Or.inr (Or.inr hserver)
    · cases hstep
  | lock t => exact hthread t rfl hstep
  | write t ok => exact hthread t rfl hstep
  | socket t sockfd => exact hthread t rfl hstep
  | badAddress t => exact hthread t rfl hstep
  | connect t ok => exact hthread t rfl hstep
  | epollCtl t ok => exact hthread t rfl hstep
  | cache t => exact hthread t rfl hstep
  | close t => exact hthread t rfl hstep

/-! ## The entries of the cache -/

omit [DecidableEq Node] in
theorem writeFails_buffer {first : Bool} : (writeFails s t dest fd first).buffer = s.buffer := by
  unfold writeFails
  split <;> rfl

theorem nodup_sendStep {c : Send Node} {e : Event Node Thread}
    (h : (s.buffer.map Prod.fst).Nodup) (hstep : sendStep s t c e = some s') :
    (s'.buffer.map Prod.fst).Nodup := by
  by_cases he : ∃ u, e = .cache u
  · obtain ⟨u, rfl⟩ := he
    simp only [sendStep] at hstep
    split at hstep
    · cases hstep
      exact (cacheConnection_spec _ _ _ _ _).2.2 h
    · cases hstep
  · -- all other steps leave the cache as it is
    have hbuffer : s'.buffer = s.buffer := by
      unfold sendStep at hstep
      split at hstep
      case h_11 => exact absurd ⟨_, rfl⟩ he
      all_goals
        repeat' split at hstep
        all_goals first
          | cases hstep; rfl
          | cases hstep; exact writeFails_buffer
          | cases hstep
    rw [hbuffer]
    exact h

/-- Only `add_connection` and `replace_socket` change the cache. -/
theorem nodup_step {e : Event Node Thread} (h : (s.buffer.map Prod.fst).Nodup)
    (hstep : step s e = some s') : (s'.buffer.map Prod.fst).Nodup := by
  unfold step at hstep
  split at hstep
  case h_6 =>
    split at hstep
    · cases hstep
      exact addConnection_nodup h
    · cases hstep
  case h_7 =>
    obtain ⟨t, -, hstep⟩ := Option.bind_eq_some_iff.mp hstep
    obtain ⟨c, -, hstep⟩ := Option.bind_eq_some_iff.mp hstep
    exact nodup_sendStep h hstep
  all_goals
    split at hstep
    · cases hstep
      exact h
    · cases hstep

end Threads

/-! ## Runs -/

section Run

variable [DecidableEq Node] [DecidableEq Thread] {es : List (Event Node Thread)}
  {sock : ℕ → Sock Node}

omit [DecidableEq Node] [DecidableEq Thread] in
theorem routed_init : Routed (initState sock : State Node Thread) := by
  intro node fd hr
  rcases hr with hr | ⟨t, c, hc, -⟩ | hr
  · cases hr
  · cases hc
  · cases hr

/-- The cache never has two entries for one node; and in every run in which a number becomes a
connection to a node only when nobody takes it for a connection to another one, a part of a frame
that `send_message` writes without an error goes to the peer it is for. -/
theorem cache_routes (hrun : Network.run step (initState sock) es = some s) :
    (s.buffer.map Prod.fst).Nodup ∧
      (Network.Meets step reuseOk (initState sock) es →
        ∀ t dest fd s', s.Writes t dest fd → step s (.write t true) = some s' →
          s.sock fd = .connected dest) := by
  constructor
  · have hinit : ((initState sock : State Node Thread).buffer.map Prod.fst).Nodup := List.nodup_nil
    exact Network.run_invariant (P := fun s => (s.buffer.map Prod.fst).Nodup)
      (fun s e s' h _ hstep => nodup_step h hstep) hinit (Network.meets_true _ es) hrun
  · intro hok t dest fd s' hwrites hstep
    have h : Routed s := Network.run_invariant (fun s e s' h hok hstep => routed_step h hok hstep)
      routed_init hok hrun
    obtain ⟨first, part, hc⟩ := hwrites
    have hconn : (s.sock fd).isConnected = true := by
      simp only [step, Event.thread, Option.bind_some, hc, sendStep] at hstep
      split at hstep <;> simp_all
    cases hsock : s.sock fd with
    | connected peer =>
      have hpeer := h.of_refers (Or.inr (Or.inl ⟨t, _, hc, rfl, rfl⟩)) peer hsock
      rw [hpeer]
    | _ => simp [hsock, Sock.isConnected] at hconn

end Run

/-- A message of `a` comes in on a new connection, and the thread `t` answers. -/
def answerRun (a : Node) (t : Thread) : List (Event Node Thread) :=
  [.accept 5 a, .receive 5, .add, .send t a, .lock t]

theorem cache_routes_answerRun :
    ∃ s s', Network.run step (initState fun _ => .closed) (answerRun (0 : Fin 2) (0 : Fin 1)) =
        some s ∧ step s (.write 0 true) = some s' ∧ s.sock 5 = .connected 0 := by
  have hrun : Network.run step (initState fun _ => .closed) (answerRun (0 : Fin 2) (0 : Fin 1)) =
    some _ := rfl
  refine ⟨_, _, hrun, rfl, ?_⟩
  refine (cache_routes hrun).2 ?_ 0 0 5 _ ⟨true, .size, rfl⟩ rfl
  simp [answerRun, Network.Meets, reuseOk, State.Refers, initState]

/-- A message of `a` comes in, `a` disconnects, and the connection of `b` gets its number before the
thread `t` sends to `a`. -/
def reusedRun (a b : Node) (t : Thread) : List (Event Node Thread) :=
  [.accept 5 a, .receive 5, .add, .readFail 5, .serverClose, .accept 5 b, .send t a, .lock t]

/-- The frame for one node goes to the other one, and `send_message` returns without an error. -/
theorem frame_misrouted :
    ∃ s s₁ s₂, Network.run step (initState fun _ => .closed)
        (reusedRun (0 : Fin 2) 1 (0 : Fin 1)) = some s ∧
      s.Writes 0 0 5 ∧ step s (.write 0 true) = some s₁ ∧ step s₁ (.write 0 true) = some s₂ ∧
      s₂.send 0 = none ∧ s.sock 5 = .connected 1 ∧ s₁.sock 5 = .connected 1 :=
  ⟨_, _, _, rfl, ⟨true, .size, rfl⟩, rfl, rfl, rfl, rfl, rfl⟩

end ConnectionCache
