import Zroxy.Events.EpollManager
import Zroxy.Events.DescriptorIo

/-!
# The invariant of the event loop

A connection is `Running` until its timer is up and `Ended` from then on. The
two bases are freed by the timer alone: `zxy_check_backend_close` and
`zxy_check_client_close` ask for a freed base, and while the connection runs
there is none. `LoopInv` adds what ties a connection to the batch and to the
free list; every step of the loop preserves it (`loopInv_step`).
-/

namespace Zroxy

open OffsetMemory Runs

/-! ## Accounts of the descriptors -/

theorem registeredAfter_append (ops ops' : List SysOp) :
    registeredAfter (ops ++ ops') = ops'.foldl SysOp.registers (registeredAfter ops) :=
  List.foldl_append

theorem registeredAfter_exchange {ops ops' : List SysOp}
    (h : ∀ op ∈ ops', op = .recv ∨ op = .send) :
    registeredAfter (ops ++ ops') = registeredAfter ops := by
  induction ops' generalizing ops with
  | nil => simp
  | cons op ops' ih =>
      have hop := h op (List.mem_cons_self ..)
      have hrest := @ih (ops ++ [op]) fun x hx => h x (List.mem_cons_of_mem _ hx)
      rw [List.append_assoc, List.singleton_append] at hrest
      rw [hrest, registeredAfter_append]
      rcases hop with rfl | rfl <;> rfl

theorem count_exchange {ops : List SysOp} {op : SysOp} (h : ∀ x ∈ ops, x = .recv ∨ x = .send)
    (hrecv : op ≠ .recv) (hsend : op ≠ .send) : ops.count op = 0 := by
  rw [List.count_eq_zero]
  intro hmem
  exact (h op hmem).elim hrecv hsend

/-- The log of a socket agrees with `is_closed`. -/
structure Conn.Accounted (c : Conn) : Prop where
  removed : c.io.count .epollDel = c.isClosed.toNat
  closed : c.io.count .close = c.isClosed.toNat
  registered : registeredAfter c.io = !c.isClosed

theorem Conn.Exchanged.accounted {c c' : Conn} (h : c.Exchanged c') (hc : c.Accounted) :
    c'.Accounted := by
  obtain ⟨ops, hio, hops⟩ := h.io
  refine ⟨?_, ?_, ?_⟩
  · rw [hio, List.count_append, count_exchange hops (by decide) (by decide), h.isClosed, hc.removed,
      Nat.add_zero]
  · rw [hio, List.count_append, count_exchange hops (by decide) (by decide), h.isClosed, hc.closed,
      Nat.add_zero]
  · rw [hio, registeredAfter_exchange hops, h.isClosed, hc.registered]

theorem Conn.Accounted.close {c c' : Conn} (hc : c.Accounted) (hopen : c.isClosed = false)
    (hio : c'.io = c.io ++ [.epollDel, .close]) (hclosed : c'.isClosed = true) :
    c'.Accounted := by
  obtain ⟨hremoved, hclosed', -⟩ := hc
  rw [hopen] at hremoved hclosed'
  refine ⟨?_, ?_, ?_⟩
  · rw [hio, List.count_append, hremoved, hclosed]
    rfl
  · rw [hio, List.count_append, hclosed', hclosed]
    rfl
  · rw [hio, registeredAfter_append, hclosed]
    rfl

theorem Conn.Accounted.forceClose {c : Conn} (hc : c.Accounted) : c.forceClose.Accounted := by
  rw [Conn.forceClose_eq]
  cases hopen : c.isClosed with
  | true => exact hc
  | false => exact hc.close hopen (Conn.onClose_io c) (Conn.onClose_isClosed c)

namespace ProxyConnection

/-- The order in which the handlers of a connection leave the free list. -/
def freeOrder : List SockType := [.proxyTimerSock, .clientSock, .backendSock]

/-- The connection before its timer is up. -/
structure Running (p : ProxyConnection) : Prop where
  live : p.Live
  status : p.timerStatusAndFd ≠ timerIsUp
  calls : ∀ f ∈ p.calls, f.2 ≠ .freeParams
  queued : p.queued = []
  drained : p.drained = []
  freed : p.freed = false
  refrenceCounter : p.refrenceCounter = 3
  side : ∀ s, (p.base s).params.Accounted
  timer : p.timerIo.count .epollDel = 0 ∧ p.timerIo.count .close = 0 ∧
    registeredAfter p.timerIo = true

/-- The connection after its timer is up. -/
structure Ended (p : ProxyConnection) : Prop where
  status : p.timerStatusAndFd = timerIsUp
  calls : ∃ fs, p.calls = fs ++ teardownCalls ∧ ∀ f ∈ fs, f.2 ≠ .freeParams
  queued : p.queued = [.backendSock, .clientSock, .proxyTimerSock]
  drained : p.drained <+: freeOrder
  freed : p.freed = decide (p.drained.length = 3)
  refrenceCounter : p.refrenceCounter = 3 - p.drained.length
  side : ∀ s, (p.base s).params.Accounted ∧ (p.base s).params.isClosed = true
  timer : p.timerIo.count .epollDel = 1 ∧ p.timerIo.count .close = 0 ∧
    registeredAfter p.timerIo = false

variable {p p' : ProxyConnection}

theorem handlerIo_side (p : ProxyConnection) (s : Side) :
    p.handlerIo s.sockType = (p.base s).params.io := by
  cases s <;> rfl

theorem newConnection_running (heap : Side → ℕ → Mem Byte) (clientFd : ℤ)
    (clientType : ConnType) (backendFd : ℤ) (backendType : ConnType) :
    (newConnection heap clientFd clientType backendFd backendType).Running where
  live := by
    intro s
    cases s <;> rfl
  status := show (0 : ℤ) ≠ timerIsUp by decide
  calls := nofun
  queued := rfl
  drained := rfl
  freed := rfl
  refrenceCounter := rfl
  side := by
    intro s
    cases s <;> cases clientType <;> cases backendType <;> exact ⟨rfl, rfl, rfl⟩
  timer := ⟨rfl, rfl, rfl⟩

/-- **A client or backend event** on an open socket keeps the connection running,
and leaves the two other descriptors where they are. -/
theorem Running.peerEvent {side : Side} {events : UInt32} {env : EventEnv} (h : p.Running)
    (hopen : (p.base side).params.isClosed = false)
    (hstep : p.proxyEventsCallback ⟨side.sockType, events, env⟩ = .ok p') :
    p'.Running ∧
      registeredAfter (p'.base side.peer).params.io =
        registeredAfter (p.base side.peer).params.io ∧
      p'.timerIo = p.timerIo := by
  obtain ⟨q, hquiet, hhandled, rfl⟩ := proxyEventsCallback_handled h.status h.live hstep
  -- the side closes its own socket or only exchanges; its peer only exchanges
  have hme : (q.base side).params.Accounted := by
    rcases hhandled.me_io with ⟨hio, hclosed⟩ | hexchanged
    · exact (h.side side).close hopen hio hclosed
    · exact hexchanged.accounted (h.side side)
  have hpeer : (q.base side.peer).params.Accounted :=
    hhandled.peer_exchanged.accounted (h.side side.peer)
  refine ⟨⟨(hquiet.live h.live).timerStatus _, show relaxTimer ≠ timerIsUp by decide, ?_,
    hquiet.queued.trans h.queued, hquiet.drained.trans h.drained, hquiet.freed.trans h.freed,
    hquiet.refrenceCounter.trans h.refrenceCounter, ?_, ?_⟩, ?_, hquiet.timerIo⟩
  · intro f hf
    obtain ⟨fs, hcalls, hnone⟩ := hquiet.calls
    have hmem : f ∈ p.calls ++ fs := by rwa [← hcalls]
    exact (List.mem_append.mp hmem).elim (h.calls f) (hnone f)
  · simp only [base_timerStatus]
    exact side.both hme hpeer
  · simp only [hquiet.timerIo]
    exact h.timer
  · rw [base_timerStatus, hpeer.registered, (h.side side.peer).registered,
      hhandled.peer_exchanged.isClosed]

/-- **An expiry** tears a running connection down or leaves its sockets alone. -/
theorem Running.timerEvent (h : p.Running) :
    (p.handleTimerEvent.Running ∧ ∀ s, p.handleTimerEvent.base s = p.base s) ∨
      p.handleTimerEvent = p.tornDown := by
  rcases handleTimerEvent_cases h.live with hrearm | hdown | hsame
  · rw [hrearm]
    refine Or.inl ⟨⟨?_, show timerRelaxed ≠ timerIsUp by decide, h.calls, h.queued, h.drained,
      h.freed, h.refrenceCounter, ?_, ?_⟩, p.rearmed_base⟩
    · exact h.live.rearmed
    · intro s
      rw [rearmed_base]
      exact h.side s
    · obtain ⟨hremoved, hclosed, hregistered⟩ := h.timer
      refine ⟨?_, ?_, ?_⟩
      · simpa [rearmed] using hremoved
      · simpa [rearmed] using hclosed
      · simpa [rearmed, registeredAfter_append, SysOp.registers] using hregistered
  · exact Or.inr hdown
  · rw [hsame]
    exact Or.inl ⟨h, fun _ => rfl⟩

theorem Running.tornDown (h : p.Running) : p.tornDown.Ended where
  status := rfl
  calls := ⟨p.calls, rfl, h.calls⟩
  queued := by simp [ProxyConnection.tornDown, h.queued]
  drained := by simp [ProxyConnection.tornDown, h.drained]
  freed := by simp [ProxyConnection.tornDown, h.drained, h.freed]
  refrenceCounter := by simp [ProxyConnection.tornDown, h.drained, h.refrenceCounter]
  side := by
    intro s
    have := (h.side s).forceClose
    cases s <;> exact ⟨this, Conn.forceClose_isClosed _⟩
  timer := by
    obtain ⟨hremoved, hclosed, -⟩ := h.timer
    refine ⟨?_, ?_, ?_⟩
    · simp [ProxyConnection.tornDown, hremoved]
    · simpa [ProxyConnection.tornDown] using hclosed
    · simp [ProxyConnection.tornDown, registeredAfter_append, SysOp.registers]

@[simp] theorem freeProxyObj_drained (p : ProxyConnection) (t : SockType) :
    (p.freeProxyObj t).drained = p.drained ++ [t] := by
  unfold ProxyConnection.freeProxyObj
  simp only
  split <;> rfl

/-- **Draining** the next handler. -/
theorem Ended.freeProxyObj {t : SockType} {rest : List SockType} (h : p.Ended)
    (hnext : p.drained ++ t :: rest = freeOrder) : (p.freeProxyObj t).Ended := by
  obtain ⟨hstatus, hcalls, hqueued, -, hfreed, hcount, hside, htimer⟩ := h
  have hlen := congrArg List.length hnext
  simp only [List.length_append, List.length_cons, freeOrder, List.length_nil] at hlen
  have hprefix : p.drained ++ [t] <+: freeOrder := ⟨rest, by simpa using hnext⟩
  unfold ProxyConnection.freeProxyObj
  simp only
  by_cases hlast : p.refrenceCounter - 1 ≠ 0
  · -- handlers are left, so fewer than three are drained
    rw [if_pos hlast]
    refine ⟨hstatus, hcalls, hqueued, hprefix, ?_, ?_, ?_, htimer⟩
    · have hnot : ¬ p.drained.length = 3 := by omega
      have hnot' : ¬ p.drained.length = 2 := by omega
      simp [hfreed, hnot, hnot']
    · simp only [List.length_append, List.length_singleton]
      push_cast
      omega
    · intro s
      have := hside s
      cases s <;> exact this
  · -- this was the third
    rw [if_neg hlast]
    refine ⟨hstatus, hcalls, hqueued, hprefix, ?_, ?_, ?_, htimer⟩
    · have hlen' : p.drained.length = 2 := by omega
      simp [hlen']
    · simp only [List.length_append, List.length_singleton]
      push_cast
      omega
    · intro s
      have := hside s
      cases s <;> exact this

theorem Ended.not_registered (h : p.Ended) (t : SockType) :
    registeredAfter (p.handlerIo t) = false := by
  have hside : ∀ s : Side, registeredAfter (p.base s).params.io = false := by
    intro s
    rw [(h.side s).1.registered, (h.side s).2]
    rfl
  cases t with
  | clientSock => exact hside .client
  | backendSock => exact hside .backend
  | proxyTimerSock => exact h.timer.2.2

theorem Ended.event (h : p.Ended) {e : SockEvent} (hstep : p.proxyEventsCallback e = .ok p') :
    p' = p := by
  rw [proxyEventsCallback_up h.status] at hstep
  exact (Except.ok.inj hstep).symm

/-- **One callback**: the connection goes on and the other descriptors stay as
they are, or its timer is up now, or was before. -/
theorem proxyEventsCallback_phase {e : SockEvent} (h : p.Running ∨ p.Ended)
    (hreg : p.timerStatusAndFd ≠ timerIsUp → registeredAfter (p.handlerIo e.sockType) = true)
    (hstep : p.proxyEventsCallback e = .ok p') :
    (p.Running ∧ p'.Running ∧ ∀ t, t ≠ e.sockType →
        registeredAfter (p'.handlerIo t) = registeredAfter (p.handlerIo t)) ∨
      (p.Running ∧ p' = p.tornDown) ∨ (p.Ended ∧ p' = p) := by
  rcases h with hrun | hend
  · rcases side_or_timer e with ⟨side, he⟩ | he
    · rw [he] at hstep hreg ⊢
      -- its descriptor is in the epoll set, and so its socket is open
      have hopen : (p.base side).params.isClosed = false := by
        have := hreg hrun.status
        rw [handlerIo_side, (hrun.side side).registered] at this
        simpa using this
      obtain ⟨hrun', hpeer, htimer⟩ := hrun.peerEvent hopen hstep
      refine Or.inl ⟨hrun, hrun', fun t ht => ?_⟩
      by_cases hside : t = side.peer.sockType
      · rw [hside, handlerIo_side, handlerIo_side, hpeer]
      · obtain rfl : t = .proxyTimerSock := by
          cases t <;> cases side <;> first | rfl | exact absurd rfl ht | exact absurd rfl hside
        simp only [handlerIo, htimer]
    · rw [he] at hstep ⊢
      rw [proxyEventsCallback_timer hrun.status] at hstep
      cases hstep
      rcases hrun.timerEvent with ⟨hrun', hbase⟩ | hdown
      · refine Or.inl ⟨hrun, hrun', fun t ht => ?_⟩
        cases t with
        | clientSock => exact congrArg (registeredAfter ·.params.io) (hbase .client)
        | backendSock => exact congrArg (registeredAfter ·.params.io) (hbase .backend)
        | proxyTimerSock => exact absurd rfl ht
      · exact Or.inr (Or.inl ⟨hrun, hdown⟩)
  · exact Or.inr (Or.inr ⟨hend, hend.event hstep⟩)

end ProxyConnection

/-! ## The invariant -/

namespace LoopState

/-- The handlers of connection `i` on the free list, the next one first. -/
def freeing (s : LoopState) (i : ℕ) : List SockType :=
  (s.entry.filter fun h => h.1 = i).map Prod.snd

/-- Connections, batch and free list of the loop fit together. -/
structure LoopInv (s : LoopState) : Prop where
  conns : ∀ p ∈ s.conns, p.Running ∨ p.Ended
  /-- What was drained and what is to be drained is everything, or nothing. -/
  entry : ∀ i p, s.conns[i]? = some p →
    p.drained ++ s.freeing i =
      if p.timerStatusAndFd = timerIsUp then ProxyConnection.freeOrder else []
  indices : ∀ h ∈ s.entry, h.1 < s.conns.length
  /-- A pending event is that of a handler nobody has freed, and unless its
  connection has ended meanwhile, of a descriptor still in the epoll set. -/
  batch : ∀ x ∈ s.batch, ∃ p, s.conns[x.1]? = some p ∧ p.drained = [] ∧
    (p.timerStatusAndFd ≠ timerIsUp → registeredAfter (p.handlerIo x.2.sockType) = true)
  nodup : (s.batch.map handlerOf).Nodup

theorem loopInv_init : LoopInv init where
  conns := fun _ h => absurd h List.not_mem_nil
  entry := fun _ _ h => by simp [init] at h
  indices := fun _ h => absurd h List.not_mem_nil
  batch := fun _ h => absurd h List.not_mem_nil
  nodup := List.nodup_nil

variable {s s' : LoopState}

theorem LoopInv.running_or_ended (h : LoopInv s) {i : ℕ} {p : ProxyConnection}
    (hp : s.conns[i]? = some p) : p.Running ∨ p.Ended :=
  h.conns p (List.mem_of_getElem? hp)

theorem LoopInv.next (h : LoopInv s) {i : ℕ} {e : SockEvent} {rest : List (ℕ × SockEvent)}
    {p : ProxyConnection} (hbatch : s.batch = (i, e) :: rest) (hp : s.conns[i]? = some p) :
    p.drained = [] ∧
      (p.timerStatusAndFd ≠ timerIsUp → registeredAfter (p.handlerIo e.sockType) = true) := by
  obtain ⟨p₀, hp₀, hnext⟩ := h.batch (i, e) (hbatch ▸ List.mem_cons_self ..)
  obtain rfl : p = p₀ := Option.some.inj (hp.symm.trans hp₀)
  exact hnext

theorem LoopInv.accept (h : LoopInv s) (p : ProxyConnection) (hp : p.Running) :
    LoopInv { s with conns := s.conns ++ [p] } := by
  refine ⟨?_, ?_, ?_, ?_, h.nodup⟩
  · intro q hq
    rcases List.mem_append.mp hq with hq | hq
    · exact h.conns q hq
    · exact Or.inl (List.mem_singleton.mp hq ▸ hp)
  · intro i q hq
    simp only [List.getElem?_append] at hq
    split at hq
    · exact h.entry i q hq
    · -- the new connection has no handler on the free list
      obtain ⟨hi, rfl⟩ : i - s.conns.length = 0 ∧ p = q := by
        simpa [List.getElem?_singleton] using hq
      have hnone : freeing s i = [] := by
        simp only [freeing, List.map_eq_nil_iff, List.filter_eq_nil_iff, decide_eq_true_eq]
        intro x hx hxi
        have := h.indices x hx
        omega
      rw [if_neg hp.status, hp.drained]
      exact hnone
  · intro x hx
    have := h.indices x hx
    simp only [List.length_append]
    omega
  · intro x hx
    obtain ⟨q, hq, hrest⟩ := h.batch x hx
    have hlt : x.1 < s.conns.length := (List.getElem?_eq_some_iff.mp hq).1
    exact ⟨q, by simp [List.getElem?_append_left hlt, hq], hrest⟩

theorem LoopInv.epollWait (h : LoopInv s) {batch : List (ℕ × SockEvent)}
    (hreport : s.Reportable batch) : LoopInv { s with batch := batch } := by
  refine ⟨h.conns, h.entry, h.indices, ?_, hreport.1⟩
  intro x hx
  have hreg := hreport.2 x hx
  simp only [registered, handlerOf] at hreg
  split at hreg
  · cases hreg
  · rename_i p hp
    rcases h.running_or_ended hp with hrun | hend
    · exact ⟨p, hp, hrun.drained, fun _ => hreg⟩
    · rw [hend.not_registered] at hreg
      cases hreg

theorem freeing_push (s : LoopState) (conns : List ProxyConnection)
    (batch : List (ℕ × SockEvent)) (i j : ℕ) (ts : List SockType) :
    freeing ⟨conns, batch, (ts.map fun t => (i, t)) ++ s.entry⟩ j =
      (if i = j then ts else []) ++ s.freeing j := by
  simp only [freeing, List.filter_append, List.map_append, List.filter_map, List.map_map]
  congr 1
  by_cases hij : i = j
  · simp [hij, Function.comp_def]
  · simp [hij, Function.comp_def]

theorem LoopInv.advance (h : LoopInv s) {i : ℕ} {e : SockEvent} {rest : List (ℕ × SockEvent)}
    {p p' : ProxyConnection} (ts : List SockType) (hbatch : s.batch = (i, e) :: rest)
    (hp : s.conns[i]? = some p) (hphase : p'.Running ∨ p'.Ended) (hdrained : p'.drained = [])
    (hentry : ts ++ s.freeing i =
      if p'.timerStatusAndFd = timerIsUp then ProxyConnection.freeOrder else [])
    (hreg : ∀ x ∈ rest, x.1 = i → p'.timerStatusAndFd ≠ timerIsUp →
      registeredAfter (p'.handlerIo x.2.sockType) = true) :
    LoopInv ⟨s.conns.set i p', rest, (ts.map fun t => (i, t)) ++ s.entry⟩ := by
  have hi : i < s.conns.length := (List.getElem?_eq_some_iff.mp hp).1
  have hnodup := h.nodup
  rw [hbatch] at hnodup
  refine ⟨(forall_conns_set_iff hp h.conns).mpr hphase, ?_, ?_, ?_,
    (List.nodup_cons.mp hnodup).2⟩
  · intro j q hq
    rw [freeing_push]
    by_cases hij : i = j
    · subst hij
      rw [List.getElem?_set_self hi] at hq
      cases hq
      rw [if_pos rfl, hdrained]
      exact hentry
    · rw [List.getElem?_set_ne hij] at hq
      rw [if_neg hij]
      exact h.entry j q hq
  · intro x hx
    rw [List.length_set]
    rcases List.mem_append.mp hx with hx | hx
    · obtain ⟨t, -, rfl⟩ := List.mem_map.mp hx
      exact hi
    · exact h.indices x hx
  · intro x hx
    by_cases hxi : x.1 = i
    · exact ⟨p', by rw [hxi, List.getElem?_set_self hi], hdrained, hreg x hx hxi⟩
    · obtain ⟨q, hq, hrest⟩ := h.batch x (hbatch ▸ List.mem_cons_of_mem _ hx)
      exact ⟨q, by rw [List.getElem?_set_ne (Ne.symm hxi), hq], hrest⟩

theorem LoopInv.dispatch (h : LoopInv s) (hstep : s.step .dispatch = .ok s') : LoopInv s' := by
  obtain ⟨i, e, rest, p, p', hbatch, hp, hcall, rfl⟩ := step_dispatch hstep
  obtain ⟨hnone, hreg⟩ := h.next hbatch hp
  have hold := h.entry i p hp
  rw [hnone, List.nil_append] at hold
  -- the other events of this connection in the batch are for other descriptors
  have hother : ∀ x ∈ rest, x.1 = i → x.2.sockType ≠ e.sockType ∧
      (p.timerStatusAndFd ≠ timerIsUp →
        registeredAfter (p.handlerIo x.2.sockType) = true) := by
    intro x hx hxi
    obtain ⟨q, hq, -, hqreg⟩ := h.batch x (hbatch ▸ List.mem_cons_of_mem _ hx)
    rw [hxi, hp] at hq
    cases hq
    refine ⟨?_, hqreg⟩
    have hnodup := h.nodup
    rw [hbatch, List.map_cons, List.nodup_cons] at hnodup
    intro htype
    exact hnodup.1 (List.mem_map.mpr ⟨x, hx, by rw [handlerOf, handlerOf, hxi, htype]⟩)
  rcases ProxyConnection.proxyEventsCallback_phase (h.running_or_ended hp) hreg hcall with
    ⟨hrun, hrun', hsame⟩ | ⟨hrun, rfl⟩ | ⟨hend, rfl⟩
  · rw [hrun'.queued, List.drop_nil]
    refine h.advance [] hbatch hp (Or.inl hrun') hrun'.drained ?_ ?_
    · rw [if_neg hrun.status] at hold
      rw [if_neg hrun'.status, hold, List.append_nil]
    · intro x hx hxi _
      obtain ⟨hne, hxreg⟩ := hother x hx hxi
      rw [hsame _ hne]
      exact hxreg hrun.status
  · have hreleased : (p.tornDown.queued.drop p.queued.length).reverse =
        ProxyConnection.freeOrder := by
      rw [hrun.tornDown.queued, hrun.queued]
      rfl
    rw [hreleased]
    refine h.advance _ hbatch hp (Or.inr hrun.tornDown) hrun.drained ?_ ?_
    · rw [if_neg hrun.status] at hold
      rw [hold, if_pos hrun.tornDown.status, List.append_nil]
    · intro x hx hxi hup
      exact absurd hrun.tornDown.status hup
  · rw [List.drop_length]
    exact h.advance [] hbatch hp (Or.inr hend) hnone hold
      fun x hx hxi hup => absurd hend.status hup

theorem LoopInv.drain (h : LoopInv s) (hstep : s.step .drain = .ok s') : LoopInv s' := by
  obtain ⟨i, t, rest, p, hbatch, hentry, hp, rfl⟩ := step_drain hstep
  have hi : i < s.conns.length := (List.getElem?_eq_some_iff.mp hp).1
  have hfreeing : s.freeing i = t :: freeing ⟨s.conns, [], rest⟩ i := by
    simp [freeing, hentry]
  have hall := h.entry i p hp
  rw [hfreeing] at hall
  -- a handler on the free list is one of an ended connection
  have hup : p.timerStatusAndFd = timerIsUp := by
    by_contra hne
    rw [if_neg hne] at hall
    simp at hall
  have hend : p.Ended := (h.running_or_ended hp).resolve_left fun hrun => hrun.status hup
  rw [if_pos hup] at hall
  have hend' : (p.freeProxyObj t).Ended := hend.freeProxyObj hall
  refine ⟨(forall_conns_set_iff hp h.conns).mpr (Or.inr hend'), ?_, ?_,
    fun _ hx => absurd hx List.not_mem_nil, List.nodup_nil⟩
  · intro j q hq
    by_cases hij : i = j
    · subst hij
      rw [List.getElem?_set_self hi] at hq
      cases hq
      rw [if_pos hend'.status, ProxyConnection.freeProxyObj_drained, List.append_assoc]
      exact hall
    · rw [List.getElem?_set_ne hij] at hq
      have := h.entry j q hq
      rw [← this]
      simp [freeing, hentry, hij]
  · intro x hx
    have := h.indices x (hentry ▸ List.mem_cons_of_mem _ hx)
    simpa using this

/-- **Every step of the loop** preserves the invariant. -/
theorem loopInv_step (e : LoopEvent) (h : LoopInv s) (hstep : s.step e = .ok s') :
    LoopInv s' := by
  cases e with
  | accept heap clientFd clientType backendFd backendType =>
      cases hstep
      exact h.accept _ (ProxyConnection.newConnection_running _ _ _ _ _)
  | epollWait batch =>
      obtain ⟨-, -, hreport, rfl⟩ := step_epollWait hstep
      exact h.epollWait hreport
  | dispatch => exact h.dispatch hstep
  | drain => exact h.drain hstep

end LoopState
end Zroxy
