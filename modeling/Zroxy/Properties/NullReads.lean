import Zroxy.Properties.RewrittenText
import Zroxy.Properties.ServerConveyance

/-!
# Reading through NULL

A header line that continues another has no name, and the comparison of names
reads through its NULL. The process does not survive that, so one client ends the
connections of all of them. `OffersNull` says which events come to it: they offer
the backend bytes that the rewriting does not survive
(`hostRewritten_cases` says what these look like).

Nothing else that the callbacks do reads through NULL (`null_read_iff`).
-/

namespace Zroxy

open OffsetMemory Runs

/-! ## Encrypting -/

namespace SslConn

variable {c : SslConn} {f : Fault}

theorem encryptLoop_fault : ∀ {ws : List WriteCall} {c : SslConn},
    encryptLoop ws c = .error f → f = .spinning
  | [], c, h => by
      unfold encryptLoop at h
      split at h
      · cases h
        rfl
      · cases h
  | w :: ws, c, h => by
      by_cases hpending : 0 < c.encryptBufferManager.currentBufferPtr
      · rw [encryptLoop_turn w ws hpending] at h
        split at h
        · cases h
        · exact encryptLoop_fault h
      · rw [encryptLoop_idle _ hpending] at h
        cases h

theorem encryptIoReq_fault {side : Side} {env : WriteEnv}
    (h : encryptIoReq side c env = .error f) : f = .spinning := by
  cases side with
  | client =>
      change clientEncryptIoReq c env = .error f at h
      unfold clientEncryptIoReq at h
      split at h
      · cases h
      · exact encryptLoop_fault h
  | backend =>
      change backendEncryptIoReq c env = .error f at h
      unfold backendEncryptIoReq at h
      split at h
      · split at h
        · cases h
        · exact encryptLoop_fault h
      · exact encryptLoop_fault h

theorem onWriteEvent_fault {side : Side} {req : WriteIoReq} {env : WriteEnv}
    (h : c.onWriteEvent (encryptIoReq side) req env = .error f) : f = .spinning := by
  rcases bind_error_iff.mp h with hencrypt | ⟨r, -, hflush⟩
  · exact encryptIoReq_fault hencrypt
  · split at hflush <;> cases hflush

end SslConn

/-! ## The rewriting -/

theorem rewriteHost_error_iff {req : WriteIoReq} {f : Fault} :
    rewriteHost req = .error f ↔ hostRewritten req.bytes = .error f := by
  have hmap : ∀ x : Except Fault WriteIoReq, x.map WriteIoReq.bytes = .error f ↔ x = .error f := by
    intro x
    cases x with
    | error g => simp [Except.map]
    | ok r => simp [Except.map]
  rcases le_or_gt 0 req.sendNbytes with hlen | hlen
  · rw [← rewriteHost_bytes hlen, hmap]
  · -- no bytes are no request
    have hbytes : req.bytes = [] := by
      rw [WriteIoReq.bytes, Int.toNat_of_nonpos hlen.le, window_zero]
    have hnone : ∀ parsed, phrParseRequest [] maxNumHeaders ≠ .ok parsed := by
      intro parsed
      rintro ⟨⟩
    rw [rewriteHost_unparsed (by rw [hbytes]; exact fun parsed h => absurd h (hnone parsed)),
      hbytes, (hostRewritten_eq_iff []).mpr fun parsed h => absurd h (hnone parsed)]
    simp

namespace Conn

/-- Only the backend's `on_write` looks at names, and before it does anything
else. -/
theorem onWrite_null_iff {c : Conn} (hc : c.connType = .sslConn) {side : Side}
    {req : WriteIoReq} {env : WriteEnv} :
    c.onWrite side req env = .error .nullName ↔
      side = .backend ∧ hostRewritten req.bytes = .error .nullName := by
  obtain ⟨s, rfl⟩ := eq_ssl hc
  rw [← rewriteHost_error_iff]
  cases side with
  | client =>
      refine iff_of_false (fun h => ?_) (by simp)
      rcases bind_error_iff.mp h with h | ⟨r, -, h⟩
      · rcases bind_error_iff.mp h with h | ⟨r, -, h⟩
        · change s.onWriteEvent (SslConn.encryptIoReq .client) req env = _ at h
          cases SslConn.onWriteEvent_fault h
        · cases h
      · cases h
  | backend =>
      simp only [true_and]
      constructor
      · intro h
        rcases bind_error_iff.mp h with h | ⟨r, -, h⟩
        · rcases bind_error_iff.mp h with h | ⟨req', -, h⟩
          · exact h
          · rcases bind_error_iff.mp h with h | ⟨r, -, h⟩
            · change s.onWriteEvent (SslConn.encryptIoReq .backend) req' env = _ at h
              cases SslConn.onWriteEvent_fault h
            · cases h
        · cases h
      · intro h
        simp [onWrite, SslConn.onBackendSslWriteEvent, h, Except.bind]

@[simp] theorem readNbytes_ssl {c : Conn} (hc : c.connType = .sslConn) {side : Side} {n : ℤ}
    {f : Fault} : c.readNbytes side n ≠ .error f := by
  obtain ⟨s, rfl⟩ := eq_ssl hc
  rintro ⟨⟩

end Conn

namespace ProxyConnection

variable {p p' : ProxyConnection} {me : Side} {events : UInt32} {env : EventEnv}

/-! ## The branches -/

/-- What one event of a side offers to the backend. -/
inductive Offers (p : ProxyConnection) (events : UInt32) (env : EventEnv) :
    Side → List Byte → Prop
  /-- The client has been read from, and the mask stored for the backend says that it
  can write. -/
  | relayed
      (hclose : maskReady (storeMask p.client.params.events events) .close = false)
      (hready : maskReady (storeMask p.client.params.events events) .read = true)
      (hread : 0 < readSocketNonBlock env.read.recv)
      (hmask : maskReady p.backend.params.events .write = true) :
      Offers p events env .client
        ((p.client.params.withMask events).onRead .client env.read).1.offered
  /-- The backend can write, and its READ branch has returned. -/
  | written
      (hclose : maskReady (storeMask p.backend.params.events events) .close = false)
      (hready : maskReady (storeMask p.backend.params.events events) .write = true)
      (hreturned : ∃ r, (p.isReadyEvent .backend events .close).1.handleReadEvent .backend
        events env = .ok r) :
      Offers p events env .backend p.client.params.offered

theorem writeFrom_null_iff {source : Side} {env : WriteEnv}
    (hssl : (p.base source.peer).params.connType = .sslConn) :
    p.writeFrom source env = .error .nullName ↔
      source = .client ∧ hostRewritten (p.base source).params.offered = .error .nullName := by
  unfold writeFrom
  rw [bind_error_iff]
  simp only [record_base, reduceCtorEq, and_false, exists_false, or_false]
  rw [Conn.onWrite_null_iff hssl, Conn.requestBufferReader_bytes]
  cases source <;> simp [Side.peer]

/-- **The READ branch** offers what the client has pending once it is read. -/
theorem handleReadEvent_null_iff (hfree : (p.base me.peer).setFree = false)
    (hssl : ∀ s, (p.base s).params.connType = .sslConn) :
    p.handleReadEvent me events env = .error .nullName ↔
      me = .client ∧ maskReady (storeMask (p.base me).params.events events) .read = true ∧
        0 < readSocketNonBlock env.read.recv ∧
        maskReady (p.base me.peer).params.events .write = true ∧
        hostRewritten (((p.base me).params.withMask events).onRead me env.read).1.offered =
          .error .nullName := by
  unfold handleReadEvent
  obtain ⟨q, hq, hme, hpeer, -⟩ := isReadyEvent_cases p me events .read
  rw [hq]
  simp only
  cases hready : maskReady (storeMask (p.base me).params.events events) .read with
  | false => simp
  | true =>
      have hopen : (q.base me.peer).setFree = false := by rw [hpeer, hfree]
      obtain ⟨r, hr, hme', hpeer', -⟩ := onRead_cases q me env.read
      rw [hme] at hr hme'
      rw [hpeer] at hpeer'
      rw [Conn.onRead_snd] at hr
      simp only [checkPeerClose_eq hopen, hr, Bool.not_true, Bool.false_eq_true, if_false,
        true_and]
      by_cases hread : 0 < readSocketNonBlock env.read.recv
      · obtain ⟨t, ht, htpeer, htme, -⟩ := isReadyEvent_cases r me.peer 0xFFFFFFFF .write
        have hstored : storeMask (r.base me.peer).params.events 0xFFFFFFFF =
            (p.base me.peer).params.events := by
          rw [hpeer']
          rfl
        rw [Side.peer_peer] at htme
        rw [Conn.withMask_neg_one, hpeer'] at htpeer
        rw [hstored] at ht
        simp only [hread, if_true, ht, true_and]
        cases hmask : maskReady (p.base me.peer).params.events .write with
        | false => simp
        | true =>
            have htype : (t.base me.peer).params.connType = .sslConn := by
              rw [htpeer]
              exact hssl me.peer
            simp only [if_true, true_and]
            rw [bind_error_iff, writeFrom_null_iff htype, htme, hme']
            -- the result is consumed without a fault
            refine or_iff_left ?_
            rintro ⟨⟨u, n⟩, hwrite, h⟩
            obtain ⟨c, memory, -, -, hu, -⟩ := writeFrom_ok hwrite
            have hutype : (u.base me).params.connType = .sslConn := by
              obtain ⟨-, -, -, hset, -⟩ := (t.base me).params.setSource_frame memory
              obtain ⟨-, -, -, hreceived, -⟩ :=
                ((p.base me).params.withMask events).onRead_frame me env.read
              rw [hu, hset, htme, hme', hreceived, Conn.withMask_connType]
              exact hssl me
            rcases bind_error_iff.mp h with h | ⟨v, -, h⟩
            · rcases bind_error_iff.mp h with h | ⟨c, -, h⟩
              · exact absurd h (Conn.readNbytes_ssl (by simpa using hutype))
              · cases h
            · cases h
      · simp [hread]

/-- **The WRITE branch** of the backend offers what the client has pending. -/
theorem handleWriteEvent_null_iff (hssl : (p.base me).params.connType = .sslConn) :
    p.handleWriteEvent me events env = .error .nullName ↔
      me = .backend ∧ maskReady (storeMask (p.base me).params.events events) .write = true ∧
        hostRewritten (p.base me.peer).params.offered = .error .nullName := by
  unfold handleWriteEvent
  obtain ⟨q, hq, hme, hpeer, -⟩ := isReadyEvent_cases p me events .write
  rw [hq]
  simp only
  cases hready : maskReady (storeMask (p.base me).params.events events) .write with
  | false => simp
  | true =>
      have htype : (q.base me.peer.peer).params.connType = .sslConn := by
        rw [Side.peer_peer, hme, Conn.withMask_connType]
        exact hssl
      simp only [Bool.not_true, Bool.false_eq_true, if_false, true_and]
      rw [bind_error_iff, writeFrom_null_iff htype, hpeer]
      simp only [reduceCtorEq, and_false, exists_false, or_false]
      cases me <;> simp [Side.peer]

/-- What the WRITE branch finds behind a READ branch that returns: the mask as it was
stored, and the pending bytes of the peer as they were. -/
theorem handleReadEvent_behind {gone : Bool} (hfree : (p.base me.peer).setFree = false)
    (hssl : (p.base me).params.connType = .sslConn)
    (h : p.handleReadEvent me events env = .ok (p', gone)) :
    gone = false ∧ (p'.base me).params.connType = .sslConn ∧
      storeMask (p'.base me).params.events events =
        storeMask (p.base me).params.events events ∧
      (p'.base me.peer).params.offered = (p.base me.peer).params.offered := by
  obtain ⟨hgone, -, hbranch⟩ := handleReadEvent_branch hfree h
  have hsame : SameLink (p.base me.peer).params ((p.base me).params.withMask events)
      (p'.base me.peer).params (p'.base me).params :=
    ReadBranch.sink_sameLink (s := me.peer) (by rw [Side.peer_peer]; exact hbranch)
  have hevents := hbranch.events_eq
  rw [Conn.withMask_events] at hevents
  refine ⟨hgone, ?_, by rw [hevents, storeMask_self], hsame.offered⟩
  rw [hsame.sinkType]
  simpa using hssl

/-- **A client or backend event** reads through NULL exactly if it offers the
backend what the rewriting does not survive. -/
theorem handlePeerEvents_null_iff (hlive : p.Live)
    (hssl : ∀ s, (p.base s).params.connType = .sslConn) :
    p.handlePeerEvents me events env = .error .nullName ↔
      ∃ piece, p.Offers events env me piece ∧ hostRewritten piece = .error .nullName := by
  unfold handlePeerEvents
  obtain ⟨q, hq, hme, hpeer, hquiet⟩ := isReadyEvent_cases p me events .close
  rw [hq]
  simp only
  cases hclose : maskReady (storeMask (p.base me).params.events events) .close with
  | true =>
      refine iff_of_false (by simp) ?_
      rintro ⟨piece, hoffers, -⟩
      cases hoffers with
      | relayed hopen => exact absurd (hopen.symm.trans hclose) Bool.false_ne_true
      | written hopen => exact absurd (hopen.symm.trans hclose) Bool.false_ne_true
  | false =>
      have hfree : (q.base me.peer).setFree = false := by rw [hpeer, hlive me.peer]
      have htype : ∀ s, (q.base s).params.connType = .sslConn := by
        refine fun s => me.both (P := fun s => (q.base s).params.connType = .sslConn) ?_ ?_ s
        · rw [hme, Conn.withMask_connType]
          exact hssl me
        · rw [hpeer]
          exact hssl me.peer
      simp only [Bool.false_eq_true, if_false]
      rw [bind_error_iff, handleReadEvent_null_iff hfree htype, hme, hpeer,
        Conn.withMask_events, storeMask_self, Conn.withMask_withMask]
      -- the state behind a READ branch that returns
      have hbehind : ∀ r gone, q.handleReadEvent me events env = .ok (r, gone) →
          gone = false ∧ (r.base me).params.connType = .sslConn ∧
            storeMask (r.base me).params.events events =
              storeMask (p.base me).params.events events ∧
            (r.base me.peer).params.offered = (p.base me.peer).params.offered := by
        intro r gone hread
        have hreturned := handleReadEvent_behind hfree (htype me) hread
        rwa [hme, hpeer, Conn.withMask_events, storeMask_self] at hreturned
      cases me with
      | client =>
          constructor
          · rintro (⟨-, hready, hread, hmask, hfault⟩ | ⟨⟨r, gone⟩, hreturned, hwrite⟩)
            · exact ⟨_, .relayed hclose hready hread hmask, hfault⟩
            · obtain ⟨rfl, hrtype, -, -⟩ := hbehind r gone hreturned
              simp only [Bool.false_eq_true, if_false] at hwrite
              cases ((handleWriteEvent_null_iff hrtype).mp hwrite).1
          · rintro ⟨piece, hoffers, hfault⟩
            cases hoffers with
            | relayed _ hready hread hmask => exact Or.inl ⟨rfl, hready, hread, hmask, hfault⟩
      | backend =>
          constructor
          · rintro (⟨hme', -⟩ | ⟨⟨r, gone⟩, hreturned, hwrite⟩)
            · cases hme'
            · obtain ⟨rfl, hrtype, hevents, hoffered⟩ := hbehind r gone hreturned
              simp only [Bool.false_eq_true, if_false] at hwrite
              obtain ⟨-, hready, hfault⟩ := (handleWriteEvent_null_iff hrtype).mp hwrite
              rw [hevents] at hready
              rw [hoffered] at hfault
              refine ⟨_, .written hclose hready ⟨(r, false), ?_⟩, hfault⟩
              rw [hq]
              exact hreturned
          · rintro ⟨piece, hoffers, hfault⟩
            cases hoffers with
            | written _ hready hreturned =>
                obtain ⟨⟨r, gone⟩, hreturned⟩ := hreturned
                rw [hq] at hreturned
                obtain ⟨rfl, hrtype, hevents, hoffered⟩ := hbehind r gone hreturned
                refine Or.inr ⟨(r, false), hreturned, ?_⟩
                simp only [Bool.false_eq_true, if_false]
                rw [handleWriteEvent_null_iff hrtype, hevents, hoffered]
                exact ⟨rfl, hready, hfault⟩

/-! ## The callback -/

/-- Two SSL sides, none of them freed before the timer is up. -/
structure SslServed (p : ProxyConnection) : Prop where
  live : p.timerStatusAndFd ≠ timerIsUp → p.Live
  ssl : ∀ s, (p.base s).params.connType = .sslConn

/-- The callback offers the backend bytes that the rewriting does not survive. -/
def OffersNull (p : ProxyConnection) (e : SockEvent) : Prop :=
  p.timerStatusAndFd ≠ timerIsUp ∧ ∃ (side : Side) (piece : List Byte),
    e.sockType = side.sockType ∧ p.Offers e.events e.env side piece ∧
      hostRewritten piece = .error .nullName

theorem proxyEventsCallback_null_iff (h : p.SslServed) (e : SockEvent) :
    p.proxyEventsCallback e = .error .nullName ↔ p.OffersNull e := by
  by_cases hup : p.timerStatusAndFd = timerIsUp
  · rw [proxyEventsCallback_up hup]
    exact iff_of_false (by simp) fun hoffers => hoffers.1 hup
  · rcases side_or_timer e with ⟨side, he⟩ | he
    · have hcall : p.proxyEventsCallback e = .error .nullName ↔
          p.handlePeerEvents side e.events e.env = .error .nullName := by
        rw [he]
        cases side <;> simp [proxyEventsCallback, hup, Side.sockType, handleClientEvents,
          handleBackendEvents, bind_error_iff]
      rw [hcall, handlePeerEvents_null_iff (h.live hup) h.ssl]
      constructor
      · rintro ⟨piece, hoffers, hfault⟩
        exact ⟨hup, side, piece, by rw [he], hoffers, hfault⟩
      · rintro ⟨-, side', piece, htype, hoffers, hfault⟩
        have hside : side.sockType = side'.sockType := by rw [← htype, he]
        obtain rfl : side = side' := by
          cases side <;> cases side' <;> first | rfl | cases hside
        exact ⟨piece, hoffers, hfault⟩
    · rw [he, proxyEventsCallback_timer hup]
      refine iff_of_false (by simp) ?_
      rintro ⟨-, side, piece, htype, -⟩
      rw [he] at htype
      exact side.sockType_ne_timer htype.symm

theorem SslServed.callback {p' : ProxyConnection} (h : p.SslServed) {e : SockEvent}
    (hstep : p.proxyEventsCallback e = .ok p') : p'.SslServed := by
  by_cases hup : p.timerStatusAndFd = timerIsUp
  · rw [proxyEventsCallback_up hup] at hstep
    cases hstep
    exact h
  have hlive := h.live hup
  rcases side_or_timer e with ⟨me, he⟩ | he
  · rw [he] at hstep
    obtain ⟨q, hquiet, hhandled, rfl⟩ := proxyEventsCallback_handled hup hlive hstep
    obtain ⟨hme, hpeer⟩ := hhandled.connType
    refine ⟨fun _ => (hquiet.live hlive).timerStatus _, fun s => ?_⟩
    rw [base_timerStatus]
    exact me.both (P := fun s => (q.base s).params.connType = .sslConn) (hme.trans (h.ssl me))
      (hpeer.trans (h.ssl me.peer)) s
  · rw [he, proxyEventsCallback_timer hup] at hstep
    cases hstep
    rcases handleTimerEvent_cases hlive with hrearm | hdown | hsame
    · rw [hrearm]
      exact ⟨fun _ => hlive.rearmed, fun s => by rw [rearmed_base]; exact h.ssl s⟩
    · rw [hdown]
      refine ⟨fun hne => absurd rfl hne, fun s => ?_⟩
      rw [tornDown_params, (sameLink_forceClose _ (p.base s).params).sourceType]
      exact h.ssl s
    · rw [hsame]
      exact h

theorem SslServed.freeProxyObj (h : p.SslServed) (t : SockType) :
    (p.freeProxyObj t).SslServed := by
  refine ⟨fun hne s => ?_, fun s => ?_⟩
  · rw [freeProxyObj_timerStatus] at hne
    rw [freeProxyObj_base]
    exact h.live hne s
  · rw [freeProxyObj_base]
    exact h.ssl s

theorem newConnection_sslServed (heap : Side → ℕ → Mem Byte) (clientFd backendFd : ℤ) :
    (newConnection heap clientFd .sslConn backendFd .sslConn).SslServed := by
  obtain ⟨h, -⟩ := newConnection_conveying heap clientFd backendFd
  exact ⟨h.live, h.ssl⟩

end ProxyConnection

/-! ## The server -/

namespace ServerState

variable {s : ServerState}

/-- The step is the callback of a connection that offers the backend bytes that
the rewriting does not survive. -/
def OffersNull (s : ServerState) : ServerEvent → Prop
  | .dispatch => ∃ i t r rest c, s.batch = (.proxy (i, t), r) :: rest ∧ s.conns[i]? = some c ∧
      c.proxy.OffersNull ⟨t, r.events, r.env⟩
  | _ => False

theorem exact_sslServed : ExactOnCallbacks (fun _ _ => ([] : List Unit))
    ProxyConnection.SslServed (fun _ _ => True) (fun _ _ => True) (fun _ _ => True) where
  new heap clientFd backendFd :=
    ⟨ProxyConnection.newConnection_sslServed heap clientFd backendFd, trivial⟩
  callback _ _ _ _ h _ _ hstep := ⟨Iff.rfl, h.callback hstep⟩
  drain _ t _ h _ := ⟨h.freeProxyObj t, trivial⟩

theorem sslServed_step {e : ServerEvent} (hssl : s.EachConn ProxyConnection.SslServed)
    (hstep : s.step e = .ok s') : s'.EachConn ProxyConnection.SslServed := by
  have hnothing : OfConns (s, ([] : List (ℕ × Unit))) := List.forall_mem_nil _
  have hany : s.OnCallback (fun _ _ => True) e := by
    cases e with
    | dispatch => exact fun _ _ _ _ _ _ _ => trivial
    | epollWait => trivial
    | drain => trivial
  exact (exact_sslServed.step hssl hnothing (fun _ _ _ => trivial) hany hstep).2.1

theorem acceptNewConn_not_callback {f : Fault} {clients : List Accepted} {ending : AcceptEnd} :
    ∀ {s : ServerState}, acceptNewConn clients ending s ≠ .error (.callback f) := by
  induction clients with
  | nil => cases ending <;> (intro s; rintro ⟨⟩)
  | cons a clients ih =>
      intro s h
      rw [acceptNewConn] at h
      split at h
      · rcases bind_error_iff.mp h with h | ⟨s', -, h⟩
        · unfold handleClient at h
          split at h <;> cases h
        · exact ih h
      · cases h

theorem handleAcceptingConnections_not_callback {f : Fault} (r : Report) :
    s.handleAcceptingConnections r ≠ .error (.callback f) := by
  intro h
  unfold handleAcceptingConnections at h
  split at h
  · cases h
  · split at h
    · exact acceptNewConn_not_callback h
    · cases h

theorem dispatch_null_iff (hssl : s.EachConn ProxyConnection.SslServed) :
    s.dispatch = .error (.callback .nullName) ↔ s.OffersNull .dispatch := by
  unfold dispatch OffersNull
  cases hbatch : s.batch with
  | nil =>
      refine iff_of_false (by simp) ?_
      rintro ⟨i, t, r, rest, c, hhead, -⟩
      cases hhead
  | cons x rest =>
      obtain ⟨ptr, r⟩ := x
      cases ptr with
      | listener =>
          refine iff_of_false (handleAcceptingConnections_not_callback r) ?_
          rintro ⟨i, t, r', rest', c, hhead, -⟩
          cases hhead
      | proxy g =>
          obtain ⟨i, t⟩ := g
          simp only
          cases hc : s.conns[i]? with
          | none =>
              refine iff_of_false (by simp) ?_
              rintro ⟨i', t', r', rest', c, hhead, hc', -⟩
              cases hhead
              rw [hc] at hc'
              cases hc'
          | some c =>
              have hoffers : (∃ i' t' r' rest' c', (HandlerPtr.proxy (i, t), r) :: rest =
                  (.proxy (i', t'), r') :: rest' ∧ s.conns[i']? = some c' ∧
                    c'.proxy.OffersNull ⟨t', r'.events, r'.env⟩) ↔
                  c.proxy.OffersNull ⟨t, r.events, r.env⟩ := by
                constructor
                · rintro ⟨i', t', r', rest', c', hhead, hc', hnull⟩
                  cases hhead
                  rw [hc] at hc'
                  cases hc'
                  exact hnull
                · exact fun hnull => ⟨i, t, r, rest, c, rfl, hc, hnull⟩
              rw [hoffers, ← ProxyConnection.proxyEventsCallback_null_iff
                (hssl c (List.mem_of_getElem? hc))]
              cases hresult : c.proxy.proxyEventsCallback ⟨t, r.events, r.env⟩ with
              | error f => simp [hresult]
              | ok p => simp [hresult]

/-- **One step.** -/
theorem step_null_iff (hssl : s.EachConn ProxyConnection.SslServed) (e : ServerEvent) :
    s.step e = .error (.callback .nullName) ↔ s.OffersNull e := by
  cases e with
  | epollWait reports =>
      refine iff_of_false (fun h => ?_) id
      simp only [step] at h
      split at h <;> cases h
  | drain =>
      refine iff_of_false (fun h => ?_) id
      simp only [step, drain] at h
      split at h
      · split at h <;> cases h
      · cases h
  | dispatch => exact dispatch_null_iff hssl

end ServerState

/-- **When the server reads through NULL.** In every state of a run the next step
does so exactly if it is the callback of a connection that offers its backend
bytes that the rewriting does not survive. -/
theorem null_read_iff (env : MainEnv) (openFds : Finset ℤ) (s : ServerState)
    (hstart : startServer env openFds = some s) (es : List ServerEvent) :
    Always ServerState.step (fun s' => ∀ e,
      s'.step e = .error (.callback .nullName) ↔ s'.OffersNull e) s es := by
  have hinit : s.EachConn ProxyConnection.SslServed := by
    obtain ⟨addrs, d, b, epollFd, -, -, -, rfl⟩ := startServer_ok hstart
    exact fun c hc => absurd hc List.not_mem_nil
  have hall : Always ServerState.step
      (ServerState.EachConn ProxyConnection.SslServed) s es :=
    always_of_invariant (fun _ _ _ hssl hstep => ServerState.sslServed_step hssl hstep)
      hinit es
  exact hall.mono fun s' hssl e => ServerState.step_null_iff hssl e

/-- `G / HTTP/1.0`, `A:b` and a line that continues it. -/
def foldedChunk : Chunk :=
  ⟨[71, 32, 47, 32, 72, 84, 84, 80, 47, 49, 46, 48, 10, 65, 58, 98, 10, 32, 99, 10, 10], by decide,
    by decide⟩

/-- The client 5 sends a request with a continuation line when its backend 6 has
been found writable. -/
def acceptAndFold : List ServerEvent :=
  acceptOne ++
    [.epollWait [⟨6, epollOut, [], .again, noAnswers⟩], .dispatch,
      .epollWait [⟨5, epollIn, [], .again,
        { noAnswers with
          read := ⟨.received (.single 23),
            fun _ => ⟨1, true, ⟨.none, .empty, true⟩, ⟨[foldedChunk], .none, .empty⟩⟩⟩ }⟩]]

/-- The next step reads through NULL. -/
theorem null_read_folded : ∃ s, startServer oneAddress {0, 1, 2} = some s ∧
    Always ServerState.step (fun s' => ∀ e,
      s'.step e = .error (.callback .nullName) ↔ s'.OffersNull e) s acceptAndFold ∧
    ∃ s', run ServerState.step s acceptAndFold = .ok s' ∧
      s'.step .dispatch = .error (.callback .nullName) :=
  ⟨_, rfl, null_read_iff oneAddress {0, 1, 2} _ rfl acceptAndFold, _, rfl, rfl⟩

end Zroxy
