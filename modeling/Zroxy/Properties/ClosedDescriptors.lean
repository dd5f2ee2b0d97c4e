import Zroxy.Events.LoopInvariant

/-!
# No system call after `close`

Once a socket is closed its number may belong to another connection. A side that
has an event has an open socket, and the timer asks `is_closed` before it closes
one; the relay asks neither that nor `set_free`, but the mask that the peer's
last event left behind, and that mask may well have `EPOLLOUT` in it when the
peer hung up.

`silent_run_iff`: no run of the event loop makes a system call on a closed
socket exactly when no event of the run is relayed to a closed peer.
-/

namespace Zroxy

open OffsetMemory Runs

/-- Nothing follows a `close`. -/
def Silent (ops : List SysOp) : Prop := ops.Pairwise fun op _ => op ≠ .close

instance (ops : List SysOp) : Decidable (Silent ops) := by
  unfold Silent
  infer_instance

theorem silent_of_open {ops : List SysOp} (h : ops.count .close = 0) : Silent ops := by
  refine List.pairwise_of_forall_mem_list fun op hop _ _ hclose => ?_
  exact List.count_eq_zero.mp h (hclose ▸ hop)

theorem silent_append {ops ops' : List SysOp} (h : ops.count .close = 0) (h' : Silent ops') :
    Silent (ops ++ ops') := by
  refine List.pairwise_append.mpr ⟨silent_of_open h, h', fun op hop _ _ hclose => ?_⟩
  exact List.count_eq_zero.mp h (hclose ▸ hop)

theorem not_silent_append {ops : List SysOp} {op : SysOp} (h : .close ∈ ops) :
    ¬ Silent (ops ++ [op]) := by
  intro hs
  exact (List.pairwise_append.mp hs).2.2 _ h op (List.mem_singleton_self op) rfl

namespace ProxyConnection

variable {p p' : ProxyConnection}

/-- Nothing has followed the `close` of either socket. -/
def ClosedSilent (p : ProxyConnection) : Prop := ∀ s, Silent (p.base s).params.io

/-- **A client or backend event** of a running connection is silent on closed
sockets exactly when it does not write to a closed peer. -/
theorem closedSilent_peerEvent_iff {side : Side} {events : UInt32} {env : EventEnv}
    (h : p.Running) (hs : p.ClosedSilent) (hopen : (p.base side).params.isClosed = false)
    (hstep : p.proxyEventsCallback ⟨side.sockType, events, env⟩ = .ok p') :
    p'.ClosedSilent ↔ ((p.base side.peer).params.isClosed = true →
      ¬ WritesPeer side events env (p.base side).params (p.base side.peer).params) := by
  obtain ⟨q, -, hhandled, rfl⟩ := proxyEventsCallback_handled h.status h.live hstep
  -- the side's socket was open: it makes its calls, or its first `close`
  have hme : Silent (q.base side).params.io := by
    have hnone : (p.base side).params.io.count .close = 0 := by
      rw [(h.side side).closed, hopen]
      rfl
    rcases hhandled.me_io with ⟨hio, -⟩ | hexchanged
    · rw [hio]
      exact silent_append hnone (by decide)
    · obtain ⟨ops, hio, hops⟩ := hexchanged.io
      rw [hio]
      exact silent_append hnone (silent_of_open (count_exchange hops (by decide) (by decide)))
  have hsplit : ({ q with timerStatusAndFd := relaxTimer } : ProxyConnection).ClosedSilent ↔
      Silent (q.base side.peer).params.io := by
    constructor
    · intro hall
      simpa using hall side.peer
    · intro hpeer
      unfold ClosedSilent
      simp only [base_timerStatus]
      exact side.both hme hpeer
  rw [hsplit, hhandled.peer_io.1]
  cases hclosed : (p.base side.peer).params.isClosed with
  | false =>
      refine iff_of_true (silent_append ?_ ?_) nofun
      · rw [(h.side side.peer).closed, hclosed]
        rfl
      · split <;> decide
  | true =>
      have hmem : .close ∈ (p.base side.peer).params.io := by
        rw [← List.count_pos_iff, (h.side side.peer).closed, hclosed]
        decide
      split
      · -- a `send` behind the `close`
        exact iff_of_false (not_silent_append hmem) (fun hcond => hcond rfl ‹_›)
      · rw [List.append_nil]
        exact iff_of_true (hs side.peer) (fun _ => ‹_›)

theorem closedSilent_timerEvent (h : p.Running) (hs : p.ClosedSilent) :
    p.handleTimerEvent.ClosedSilent := by
  intro s
  rcases h.timerEvent with ⟨-, hbase⟩ | hdown
  · rw [hbase]
    exact hs s
  · rw [hdown, tornDown_params, Conn.forceClose_eq]
    cases hclosed : (p.base s).params.isClosed with
    | true => exact hs s
    | false =>
        simp only [Bool.false_eq_true, if_false, Conn.onClose_io]
        refine silent_append ?_ (by decide)
        rw [(h.side s).closed, hclosed]
        rfl

end ProxyConnection

namespace LoopState

variable {s s' : LoopState}

/-- No connection has made a system call on a socket it has closed. -/
def ClosedSilent (s : LoopState) : Prop := ∀ p ∈ s.conns, p.ClosedSilent

/-- The next event of the batch is not relayed to a closed peer. -/
def WritesOpen (s : LoopState) : LoopEvent → Prop
  | .dispatch => ∀ i e rest p side, s.batch = (i, e) :: rest → s.conns[i]? = some p →
      p.timerStatusAndFd ≠ timerIsUp → e.sockType = Side.sockType side →
      (p.base side.peer).params.isClosed = true →
      ¬ WritesPeer side e.events e.env (p.base side).params (p.base side.peer).params
  | _ => True

theorem closedSilent_event_iff {p p' : ProxyConnection} {e : SockEvent}
    (h : p.Running ∨ p.Ended)
    (hreg : p.timerStatusAndFd ≠ timerIsUp → registeredAfter (p.handlerIo e.sockType) = true)
    (hs : p.ClosedSilent) (hcall : p.proxyEventsCallback e = .ok p') :
    p'.ClosedSilent ↔ ∀ side, p.timerStatusAndFd ≠ timerIsUp →
      e.sockType = Side.sockType side → (p.base side.peer).params.isClosed = true →
      ¬ WritesPeer side e.events e.env (p.base side).params (p.base side.peer).params := by
  rcases h with hrun | hend
  · rcases ProxyConnection.side_or_timer e with ⟨side, he⟩ | he
    · have htype : e.sockType = side.sockType := by rw [he]
      have hopen : (p.base side).params.isClosed = false := by
        have := hreg hrun.status
        rw [htype, ProxyConnection.handlerIo_side, (hrun.side side).registered] at this
        simpa using this
      rw [he] at hcall
      rw [ProxyConnection.closedSilent_peerEvent_iff hrun hs hopen hcall]
      constructor
      · intro hcond side' _ htype' hclosed
        obtain rfl : side = side' := by
          rw [htype] at htype'
          cases side <;> cases side' <;> first | rfl | cases htype'
        exact hcond hclosed
      · exact fun hcond => hcond side hrun.status htype
    · have htype : e.sockType = .proxyTimerSock := by rw [he]
      rw [he, ProxyConnection.proxyEventsCallback_timer hrun.status] at hcall
      cases hcall
      refine iff_of_true (ProxyConnection.closedSilent_timerEvent hrun hs) ?_
      intro side _ htype'
      exact absurd (htype'.symm.trans htype) side.sockType_ne_timer
  · rw [hend.event hcall]
    exact iff_of_true hs fun _ hup => absurd hend.status hup

/-- **One step** is silent on closed sockets exactly when it relays nothing to a
closed peer. -/
theorem closedSilent_step_iff {e : LoopEvent} (h : LoopInv s) (hs : s.ClosedSilent)
    (hstep : s.step e = .ok s') : s'.ClosedSilent ↔ s.WritesOpen e := by
  cases e with
  | accept heap clientFd clientType backendFd backendType =>
      cases hstep
      refine iff_of_true ?_ trivial
      intro p hp
      rcases List.mem_append.mp hp with hp | hp
      · exact hs p hp
      · rw [List.mem_singleton.mp hp]
        have hrun := ProxyConnection.newConnection_running heap clientFd clientType backendFd
          backendType
        intro side
        refine silent_of_open ?_
        rw [(hrun.side side).closed]
        cases side <;> cases clientType <;> cases backendType <;> rfl
  | epollWait batch =>
      obtain ⟨-, -, -, rfl⟩ := step_epollWait hstep
      exact iff_of_true hs trivial
  | dispatch =>
      obtain ⟨i, e, rest, p, p', hbatch, hp, hcall, rfl⟩ := step_dispatch hstep
      refine (forall_conns_set_iff hp hs).trans ?_
      rw [closedSilent_event_iff (h.running_or_ended hp) (h.next hbatch hp).2
        (hs p (List.mem_of_getElem? hp)) hcall]
      constructor
      · intro hone i' e' rest' q side hbatch' hq
        rw [hbatch] at hbatch'
        cases hbatch'
        rw [hp] at hq
        cases hq
        exact hone side
      · exact fun hcond side => hcond i e rest p side hbatch hp
  | drain =>
      obtain ⟨i, t, rest, p, -, -, hp, rfl⟩ := step_drain hstep
      have hsame : ∀ side, (p.freeProxyObj t).base side = p.base side := by
        intro side
        unfold ProxyConnection.freeProxyObj
        simp only
        split <;> cases side <;> rfl
      refine iff_of_true ((forall_conns_set_iff hp hs).mpr ?_) trivial
      intro side
      rw [hsame]
      exact hs p (List.mem_of_getElem? hp) side

/-- **Closed sockets, exactly.** In all states of a run of the event loop no
connection has made a system call on a socket it has closed, if and only if no
event of the run is relayed to a closed peer. -/
theorem silent_run_iff (es : List LoopEvent) :
    Always step ClosedSilent init es ↔ EachStep step WritesOpen init es := by
  refine always_iff_eachStep (I := LoopInv) ?_ ?_ loopInv_init ?_ es
  · intro s e s' h hs hstep
    exact closedSilent_step_iff h hs hstep
  · intro s e s' h _ hstep _
    exact loopInv_step e h hstep
  · exact fun p hp => absurd hp List.not_mem_nil

def oneByteRelay : WriteEnv :=
  ⟨true, ⟨.none, .empty, true⟩, [⟨1, .none, .one (.single 23)⟩], .room 1⟩

def oneByteEvent (t : SockType) (events : UInt32) : SockEvent where
  sockType := t
  events := events
  env :=
    { read :=
        { recv := .received (.single 23)
          rounds := fun _ =>
            ⟨1, true, ⟨.none, .empty, true⟩, ⟨[.single 65], .wantRead, .empty⟩⟩ }
      relay := oneByteRelay
      write := oneByteRelay }

/-- The backend hangs up, with `EPOLLOUT` in the same mask, and then the client
sends a byte. -/
def hangUpAndRelay : List LoopEvent :=
  [.accept (fun _ _ _ => 0) 4 .sslConn 5 .sslConn,
    .epollWait [(0, oneByteEvent .backendSock (epollHup ||| epollOut))], .dispatch,
    .epollWait [(0, oneByteEvent .clientSock epollIn)], .dispatch]

/-- The byte is sent on the closed descriptor of the backend. -/
theorem relay_to_closed_backend :
    ¬ ∀ es : List LoopEvent, Always step ClosedSilent init es := by
  intro h
  obtain ⟨s, p, hrun, hp, hio⟩ : ∃ s p, run step init hangUpAndRelay = .ok s ∧ p ∈ s.conns ∧
      p.backend.params.io = [.epollAdd, .epollDel, .close, .send] :=
    ⟨_, _, rfl, List.Mem.head _, rfl⟩
  have hsilent := (h hangUpAndRelay).last hrun p hp .backend
  simp only [ProxyConnection.base, hio] at hsilent
  exact @not_silent_append [.epollAdd, .epollDel, .close] _ (by decide) hsilent

end LoopState
end Zroxy
