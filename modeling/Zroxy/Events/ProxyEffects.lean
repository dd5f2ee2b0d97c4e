import Zroxy.Events.ConnEffects

/-!
# What an event does to a proxy connection

As long as neither base is freed, a client or backend event is one of the cases
of `Handled`, which speaks of the two connections alone, and it is `Quiet`: it
frees nothing, queues no handler, and leaves the timer and the reference count
as they are.
-/

namespace Zroxy

open OffsetMemory Runs

@[simp] theorem Side.peer_peer (s : Side) : s.peer.peer = s := by cases s <;> rfl

theorem Side.both {P : Side → Prop} (side : Side) (hme : P side) (hpeer : P side.peer) :
    ∀ s, P s := by
  intro s
  cases s <;> cases side <;> assumption

theorem Side.sockType_ne_timer (s : Side) : s.sockType ≠ .proxyTimerSock := by
  cases s <;> decide

/-! ## The cases of an event -/

/-- The READ branch, on the connection that has the event and its peer. -/
inductive ReadBranch (me : Side) (env : EventEnv) (ready : Bool) (c d : Conn) : Conn → Conn → Prop
  /-- Nothing to read. -/
  | notReady (hready : ready = false) : ReadBranch me env ready c d c d
  /-- `on_read` delivers nothing. -/
  | nothing (hready : ready = true) (hread : (c.onRead me env.read).2 ≤ 0) :
      ReadBranch me env ready c d (c.onRead me env.read).1 d
  /-- The peer's stored mask says that it cannot write. -/
  | kept (hready : ready = true) (hread : 0 < (c.onRead me env.read).2)
      (hmask : maskReady d.events .write = false) :
      ReadBranch me env ready c d (c.onRead me env.read).1 d
  /-- What is pending is written by the peer, and consumed by the result. -/
  | relayed (hready : ready = true) (hread : 0 < (c.onRead me env.read).2)
      (hmask : maskReady d.events .write = true) (d' c' : Conn) (memory : Mem Byte) (nbytes : ℤ)
      (hwrite : d.onWrite me.peer (c.onRead me env.read).1.requestBufferReader env.relay =
        .ok (d', memory, nbytes))
      (hconsume : ((c.onRead me env.read).1.setSource memory).readNbytes me nbytes = .ok c') :
      ReadBranch me env ready c d c' d'

inductive WriteBranch (me : Side) (env : EventEnv) (ready : Bool) (c d : Conn) :
    Conn → Conn → Prop
  /-- Not writable. -/
  | notReady (hready : ready = false) : WriteBranch me env ready c d c d
  /-- What the peer has pending is written, and nothing is consumed. -/
  | written (hready : ready = true) (c' : Conn) (memory : Mem Byte) (nbytes : ℤ)
      (hwrite : c.onWrite me d.requestBufferReader env.write = .ok (c', memory, nbytes)) :
      WriteBranch me env ready c d c' (d.setSource memory)

/-- A client or backend event while neither base is freed. -/
inductive Handled (me : Side) (events : UInt32) (env : EventEnv) (c d : Conn) :
    Conn → Conn → Prop
  /-- The descriptor hung up or failed. -/
  | closed (hclose : maskReady (storeMask c.events events) .close = true) :
      Handled me events env c d (c.withMask events).onClose d
  /-- Both branches are tried, on the mask stored before each. -/
  | served (hclose : maskReady (storeMask c.events events) .close = false)
      (c₁ d₁ c₂ d₂ : Conn)
      (hread : ReadBranch me env (maskReady (storeMask c.events events) .read)
        (c.withMask events) d c₁ d₁)
      (hwrite : WriteBranch me env (maskReady (storeMask c₁.events events) .write)
        (c₁.withMask events) d₁ c₂ d₂) :
      Handled me events env c d c₂ d₂

structure PeerEvent where
  side : Side
  events : UInt32
  env : EventEnv

namespace ProxyConnection

variable {p p' p'' : ProxyConnection}

@[simp] theorem setParams_base (p : ProxyConnection) (s : Side) (c : Conn) :
    (p.setParams s c).base s = { p.base s with params := c } := by
  cases s <;> rfl

@[simp] theorem setParams_base_peer (p : ProxyConnection) (s : Side) (c : Conn) :
    (p.setParams s c).base s.peer = p.base s.peer := by
  cases s <;> rfl

@[simp] theorem record_base (p : ProxyConnection) (s t : Side) (f : Callback) :
    (p.record s f).base t = p.base t := by
  cases t <;> rfl

@[simp] theorem base_timerStatus (p : ProxyConnection) (status : ℤ) (s : Side) :
    ({ p with timerStatusAndFd := status } : ProxyConnection).base s = p.base s := by
  cases s <;> rfl

/-- Calls are made through the bases, none of them `free_params`, and only
`params` change. -/
structure Quiet (p p' : ProxyConnection) : Prop where
  calls : ∃ fs, p'.calls = p.calls ++ fs ∧ ∀ f ∈ fs, f.2 ≠ .freeParams
  setFree : ∀ s, (p'.base s).setFree = (p.base s).setFree
  timerStatus : p'.timerStatusAndFd = p.timerStatusAndFd
  timerIo : p'.timerIo = p.timerIo
  refrenceCounter : p'.refrenceCounter = p.refrenceCounter
  queued : p'.queued = p.queued
  drained : p'.drained = p.drained
  freed : p'.freed = p.freed

theorem Quiet.refl (p : ProxyConnection) : Quiet p p := by
  refine ⟨⟨[], by simp⟩, ?_, ?_, ?_, ?_, ?_, ?_, ?_⟩ <;> intros <;> rfl

theorem Quiet.trans (h : Quiet p p') (g : Quiet p' p'') : Quiet p p'' := by
  obtain ⟨fs, hfs, hnone⟩ := h.calls
  obtain ⟨gs, hgs, hnone'⟩ := g.calls
  refine ⟨⟨fs ++ gs, by rw [hgs, hfs, List.append_assoc], ?_⟩,
    fun s => (g.setFree s).trans (h.setFree s), g.timerStatus.trans h.timerStatus,
    g.timerIo.trans h.timerIo, g.refrenceCounter.trans h.refrenceCounter,
    g.queued.trans h.queued, g.drained.trans h.drained, g.freed.trans h.freed⟩
  intro f hf
  exact (List.mem_append.mp hf).elim (hnone f) (hnone' f)

theorem quiet_record (p : ProxyConnection) (s : Side) {f : Callback} (hf : f ≠ .freeParams) :
    Quiet p (p.record s f) := by
  refine ⟨⟨[(s, f)], rfl, by simpa using hf⟩, ?_, rfl, rfl, rfl, rfl, rfl, rfl⟩
  intro t
  rw [record_base]

theorem quiet_setParams (p : ProxyConnection) (s : Side) (c : Conn) :
    Quiet p (p.setParams s c) := by
  cases s <;> refine ⟨⟨[], by simp [setParams, setBase]⟩, ?_, rfl, rfl, rfl, rfl, rfl, rfl⟩ <;>
    intro t <;> cases t <;> rfl

theorem quiet_call (p : ProxyConnection) (s : Side) {f : Callback} (hf : f ≠ .freeParams)
    (c : Conn) : Quiet p ((p.record s f).setParams s c) :=
  (quiet_record p s hf).trans (quiet_setParams _ s c)

/-! ## Calls through the bases -/

theorem isReadyEvent_cases (p : ProxyConnection) (s : Side) (events : UInt32)
    (kind : EventKind) :
    ∃ q, p.isReadyEvent s events kind =
        (q, maskReady (storeMask (p.base s).params.events events) kind) ∧
      (q.base s).params = (p.base s).params.withMask events ∧
      q.base s.peer = p.base s.peer ∧ Quiet p q := by
  refine ⟨(p.record s .isReadyEvent).setParams s ((p.base s).params.withMask events),
    ?_, ?_, ?_, quiet_call p s (by decide) _⟩
  · simp [isReadyEvent, Conn.isReadyEvent_eq]
  · simp
  · simp

theorem onRead_cases (p : ProxyConnection) (s : Side) (env : ReadEnv) :
    ∃ q, p.onRead s env = (q, ((p.base s).params.onRead s env).2) ∧
      (q.base s).params = ((p.base s).params.onRead s env).1 ∧
      q.base s.peer = p.base s.peer ∧ Quiet p q := by
  refine ⟨(p.record s .onRead).setParams s ((p.base s).params.onRead s env).1,
    ?_, ?_, ?_, quiet_call p s (by decide) _⟩
  · simp [onRead]
  · simp
  · simp

theorem writeFrom_ok {source : Side} {env : WriteEnv} {n : ℤ}
    (h : p.writeFrom source env = .ok (p', n)) :
    ∃ c memory, (p.base source.peer).params.onWrite source.peer
          (p.base source).params.requestBufferReader env = .ok (c, memory, n) ∧
      (p'.base source.peer).params = c ∧
      (p'.base source).params = (p.base source).params.setSource memory ∧ Quiet p p' := by
  obtain ⟨⟨c, memory, m⟩, hwrite, hp⟩ := bind_ok h
  cases hp
  refine ⟨c, memory, by simpa using hwrite, ?_, ?_, ?_⟩
  · cases source <;> rfl
  · cases source <;> rfl
  · exact (quiet_record p source (by decide)).trans
      ((quiet_call _ source.peer (by decide) c).trans (quiet_setParams _ source _))

theorem readNbytes_ok {s : Side} {n : ℤ} (h : p.readNbytes s n = .ok p') :
    ∃ c, (p.base s).params.readNbytes s n = .ok c ∧ (p'.base s).params = c ∧
      p'.base s.peer = p.base s.peer ∧ Quiet p p' := by
  obtain ⟨c, hc, hp⟩ := bind_ok h
  cases hp
  refine ⟨c, by simpa using hc, ?_, ?_, ?_⟩
  · simp
  · simp
  · exact quiet_call p s (by decide) c

theorem checkPeerClose_eq {me : Side} (hfree : (p.base me.peer).setFree = false) :
    p.checkPeerClose me = (p, false) := by
  simp [checkPeerClose, hfree]

/-! ## The branches -/

/-- **The READ branch** is one of its cases. -/
theorem handleReadEvent_branch {me : Side} {events : UInt32} {env : EventEnv} {gone : Bool}
    (hfree : (p.base me.peer).setFree = false)
    (h : p.handleReadEvent me events env = .ok (p', gone)) :
    gone = false ∧ Quiet p p' ∧
      ReadBranch me env (maskReady (storeMask (p.base me).params.events events) .read)
        ((p.base me).params.withMask events) (p.base me.peer).params
        (p'.base me).params (p'.base me.peer).params := by
  unfold handleReadEvent at h
  obtain ⟨q, hq, hme, hpeer, hquiet⟩ := isReadyEvent_cases p me events .read
  rw [hq] at h
  simp only at h
  cases hready : maskReady (storeMask (p.base me).params.events events) .read with
  | false =>
      simp only [hready, Bool.not_false, if_true] at h
      cases h
      refine ⟨rfl, hquiet, ?_⟩
      rw [hme, hpeer]
      exact .notReady rfl
  | true =>
      have hopen : (q.base me.peer).setFree = false := by rw [hpeer, hfree]
      obtain ⟨r, hr, hme', hpeer', hquiet'⟩ := onRead_cases q me env.read
      rw [hme] at hr hme'
      rw [hpeer] at hpeer'
      simp only [hready, checkPeerClose_eq hopen, hr, Bool.not_true, Bool.false_eq_true,
        if_false] at h
      split at h
      · obtain ⟨t, ht, htpeer, htme, htquiet⟩ :=
          isReadyEvent_cases r me.peer 0xFFFFFFFF .write
        rw [Side.peer_peer] at htme
        rw [Conn.withMask_neg_one, hpeer'] at htpeer
        rw [ht] at h
        simp only [hpeer', storeMask] at h
        cases hmask : maskReady (p.base me.peer).params.events .write with
        | false =>
            simp [hmask] at h
            obtain ⟨rfl, rfl⟩ := h
            refine ⟨rfl, hquiet.trans (hquiet'.trans htquiet), ?_⟩
            rw [htme, hme', htpeer]
            exact .kept rfl ‹_› hmask
        | true =>
            simp [hmask] at h
            -- the peer writes what is pending, and its result is consumed
            obtain ⟨⟨u, n⟩, hwrite, h⟩ := bind_ok h
            obtain ⟨v, hread, h⟩ := bind_ok h
            cases h
            obtain ⟨d', memory, hcall, hd', hc, huquiet⟩ := writeFrom_ok hwrite
            obtain ⟨c', hconsume, hc', hvpeer, hvquiet⟩ := readNbytes_ok hread
            rw [htme, hme', htpeer] at hcall
            rw [htme, hme'] at hc
            rw [hc] at hconsume
            refine ⟨rfl, hquiet.trans (hquiet'.trans (htquiet.trans (huquiet.trans hvquiet))), ?_⟩
            rw [hc', hvpeer, hd']
            exact .relayed rfl ‹_› hmask d' c' memory n hcall hconsume
      · cases h
        refine ⟨rfl, hquiet.trans hquiet', ?_⟩
        rw [hme', hpeer']
        exact .nothing rfl (by omega)

/-- **The WRITE branch** is one of its cases. -/
theorem handleWriteEvent_branch {me : Side} {events : UInt32} {env : EventEnv}
    (hfree : (p.base me.peer).setFree = false)
    (h : p.handleWriteEvent me events env = .ok p') :
    Quiet p p' ∧
      WriteBranch me env (maskReady (storeMask (p.base me).params.events events) .write)
        ((p.base me).params.withMask events) (p.base me.peer).params
        (p'.base me).params (p'.base me.peer).params := by
  unfold handleWriteEvent at h
  obtain ⟨q, hq, hme, hpeer, hquiet⟩ := isReadyEvent_cases p me events .write
  rw [hq] at h
  simp only at h
  cases hready : maskReady (storeMask (p.base me).params.events events) .write with
  | false =>
      simp only [hready, Bool.not_false, if_true] at h
      cases h
      refine ⟨hquiet, ?_⟩
      rw [hme, hpeer]
      exact .notReady rfl
  | true =>
      simp only [hready, Bool.not_true, Bool.false_eq_true, if_false] at h
      obtain ⟨⟨r, n⟩, hwrite, hp⟩ := bind_ok h
      obtain ⟨c, memory, hcall, hc, hd, hquiet'⟩ := writeFrom_ok hwrite
      have hopen : (r.base me.peer).setFree = false := by
        rw [hquiet'.setFree, hpeer, hfree]
      simp only [checkPeerClose_eq hopen] at hp
      cases hp
      refine ⟨hquiet.trans hquiet', ?_⟩
      simp only [Side.peer_peer] at hcall hc
      rw [hme, hpeer] at hcall
      rw [hc, hd, hpeer]
      exact .written rfl c memory n hcall

/-- **A client or backend event** is one of the cases of `Handled`, and quiet. -/
theorem handlePeerEvents_handled {me : Side} {events : UInt32} {env : EventEnv}
    (hfree : (p.base me.peer).setFree = false)
    (h : p.handlePeerEvents me events env = .ok p') :
    Quiet p p' ∧ Handled me events env (p.base me).params (p.base me.peer).params
      (p'.base me).params (p'.base me.peer).params := by
  unfold handlePeerEvents at h
  obtain ⟨q, hq, hme, hpeer, hquiet⟩ := isReadyEvent_cases p me events .close
  rw [hq] at h
  simp only at h
  have hopen : (q.base me.peer).setFree = false := by rw [hpeer, hfree]
  cases hclose : maskReady (storeMask (p.base me).params.events events) .close with
  | true =>
      simp only [hclose, if_true] at h
      cases h
      have hc : ((q.onClose me).base me).params = (q.base me).params.onClose := by
        simp [onClose]
      have hd : (q.onClose me).base me.peer = q.base me.peer := by
        simp [onClose]
      refine ⟨hquiet.trans (quiet_call q me (by decide) _), ?_⟩
      rw [hc, hd, hme, hpeer]
      exact .closed hclose
  | false =>
      simp only [hclose, Bool.false_eq_true, if_false] at h
      obtain ⟨⟨r, gone⟩, hread, h⟩ := bind_ok h
      obtain ⟨rfl, hquiet', hbranch⟩ := handleReadEvent_branch hopen hread
      have hopen' : (r.base me.peer).setFree = false := by rw [hquiet'.setFree, hopen]
      obtain ⟨hquiet'', hbranch'⟩ := handleWriteEvent_branch hopen' h
      refine ⟨hquiet.trans (hquiet'.trans hquiet''), ?_⟩
      rw [hme, hpeer, Conn.withMask_events, storeMask_self, Conn.withMask_withMask] at hbranch
      exact .served hclose _ _ _ _ hbranch hbranch'

/-! ## The timer -/

def Live (p : ProxyConnection) : Prop := ∀ s, (p.base s).setFree = false

theorem Quiet.live (h : Quiet p p') (hlive : p.Live) : p'.Live :=
  fun s => (h.setFree s).trans (hlive s)

theorem Live.timerStatus (h : p.Live) (status : ℤ) :
    ({ p with timerStatusAndFd := status } : ProxyConnection).Live := by
  intro s
  rw [base_timerStatus]
  exact h s

/-- The calls of `zxy_handle_timer_up_events` on a live connection. -/
def teardownCalls : List (Side × Callback) :=
  [(.backend, .forceClose), (.backend, .freeParams), (.client, .forceClose), (.client, .freeParams)]

/-- Everything that `zxy_handle_timer_up_events` and `zxy_free_timer_handler` do
to a live connection. -/
def tornDown (p : ProxyConnection) : ProxyConnection :=
  { p with
    client := ⟨p.client.params.forceClose, true⟩
    backend := ⟨p.backend.params.forceClose, true⟩
    timerStatusAndFd := timerIsUp
    calls := p.calls ++ teardownCalls
    queued := p.queued ++ [.backendSock, .clientSock, .proxyTimerSock]
    timerIo := p.timerIo ++ [.epollDel] }

/-- What activity since the last expiry makes of an expiry. -/
def rearmed (p : ProxyConnection) : ProxyConnection :=
  { p with timerStatusAndFd := timerRelaxed, timerIo := p.timerIo ++ [.settime 1 0] }

theorem handleTimerEvent_relax (h : p.timerStatusAndFd = relaxTimer) :
    p.handleTimerEvent = p.rearmed := by
  simp [handleTimerEvent, h, setTimerTimeWith, rearmed]

theorem handleTimerEvent_idle (hlive : p.Live)
    (h : p.timerStatusAndFd = timerRelaxed ∨ 0 < p.timerStatusAndFd) :
    p.handleTimerEvent = p.tornDown := by
  have hne : p.timerStatusAndFd ≠ relaxTimer := by
    simp only [timerRelaxed, relaxTimer] at h ⊢
    omega
  have hc : p.client.setFree = false := hlive .client
  have hb : p.backend.setFree = false := hlive .backend
  simp [handleTimerEvent, hne, h, handleTimerUpEvents, closeAndFree, base, hc, hb, forceClose,
    freeParams, record, setParams, setBase, addBlockToLinkList, freeTimerHandler, tornDown,
    teardownCalls]

@[simp] theorem rearmed_base (p : ProxyConnection) (s : Side) : p.rearmed.base s = p.base s := by
  cases s <;> rfl

theorem Live.rearmed (hlive : p.Live) : p.rearmed.Live := by
  intro s
  rw [rearmed_base]
  exact hlive s

theorem tornDown_params (p : ProxyConnection) (s : Side) :
    (p.tornDown.base s).params = (p.base s).params.forceClose := by
  cases s <;> rfl

/-- **An expiry** on a live connection. -/
theorem handleTimerEvent_cases (hlive : p.Live) :
    p.handleTimerEvent = p.rearmed ∨ p.handleTimerEvent = p.tornDown ∨
      p.handleTimerEvent = p := by
  by_cases hrelax : p.timerStatusAndFd = relaxTimer
  · exact Or.inl (handleTimerEvent_relax hrelax)
  · by_cases hidle : p.timerStatusAndFd = timerRelaxed ∨ 0 < p.timerStatusAndFd
    · exact Or.inr (Or.inl (handleTimerEvent_idle hlive hidle))
    · exact Or.inr (Or.inr (by simp [handleTimerEvent, hrelax, hidle]))

/-- The remaining value, 0, makes an expiry do nothing. -/
theorem handleTimerEvent_zero (h : p.timerStatusAndFd = 0) : p.handleTimerEvent = p := by
  simp [handleTimerEvent, h, relaxTimer, timerRelaxed]

/-! ## One event of the connection -/

def peerCallback (p : ProxyConnection) (e : PeerEvent) : Except Fault ProxyConnection :=
  p.proxyEventsCallback ⟨e.side.sockType, e.events, e.env⟩

theorem proxyEventsCallback_side {side : Side} {events : UInt32} {env : EventEnv}
    (hup : p.timerStatusAndFd ≠ timerIsUp)
    (h : p.proxyEventsCallback ⟨side.sockType, events, env⟩ = .ok p') :
    ∃ q, p.handlePeerEvents side events env = .ok q ∧
      p' = { q with timerStatusAndFd := relaxTimer } := by
  cases side with
  | client =>
      simp only [proxyEventsCallback, if_neg hup, Side.sockType, handleClientEvents] at h
      obtain ⟨q, hq, hp⟩ := bind_ok h
      cases hp
      exact ⟨q, hq, rfl⟩
  | backend =>
      simp only [proxyEventsCallback, if_neg hup, Side.sockType, handleBackendEvents] at h
      obtain ⟨q, hq, hp⟩ := bind_ok h
      cases hp
      exact ⟨q, hq, rfl⟩

/-- **One event of a side**, while the connection is live: a quiet case of
`Handled`, after which the timer is relaxed. -/
theorem proxyEventsCallback_handled {side : Side} {events : UInt32} {env : EventEnv}
    (hup : p.timerStatusAndFd ≠ timerIsUp) (hlive : p.Live)
    (h : p.proxyEventsCallback ⟨side.sockType, events, env⟩ = .ok p') :
    ∃ q, Quiet p q ∧
      Handled side events env (p.base side).params (p.base side.peer).params
        (q.base side).params (q.base side.peer).params ∧
      p' = { q with timerStatusAndFd := relaxTimer } := by
  obtain ⟨q, hq, hp⟩ := proxyEventsCallback_side hup h
  obtain ⟨hquiet, hhandled⟩ := handlePeerEvents_handled (hlive side.peer) hq
  exact ⟨q, hquiet, hhandled, hp⟩

theorem proxyEventsCallback_up (hup : p.timerStatusAndFd = timerIsUp) (e : SockEvent) :
    p.proxyEventsCallback e = .ok p := by
  simp [proxyEventsCallback, hup]

theorem proxyEventsCallback_timer (hup : p.timerStatusAndFd ≠ timerIsUp) (events : UInt32)
    (env : EventEnv) :
    p.proxyEventsCallback ⟨.proxyTimerSock, events, env⟩ = .ok p.handleTimerEvent := by
  simp [proxyEventsCallback, hup]

theorem side_or_timer (e : SockEvent) :
    (∃ side : Side, e = ⟨side.sockType, e.events, e.env⟩) ∨
      e = ⟨.proxyTimerSock, e.events, e.env⟩ := by
  obtain ⟨sockType, events, env⟩ := e
  cases sockType with
  | clientSock => exact Or.inl ⟨.client, rfl⟩
  | backendSock => exact Or.inl ⟨.backend, rfl⟩
  | proxyTimerSock => exact Or.inr rfl

end ProxyConnection
end Zroxy
