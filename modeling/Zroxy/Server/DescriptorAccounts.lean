import Zroxy.Lib.Ownership
import Zroxy.Events.LoopInvariant
import Zroxy.Server.EventServer

/-!
# Whose descriptor is whose

A handler holds its descriptor until the descriptor is closed, and has it watched
as long as it is in the epoll set. `ServerState.Accounted` says that the open
descriptors are those held, one holder each, besides those that were open before
the server had any, and that the epoll set leads from each descriptor to the
handler that holds it.
-/

namespace Zroxy

open OffsetMemory Runs Ownership

/-! ## The table -/

namespace HandlerTable

variable {t : HandlerTable} {fd : ℤ}

@[simp] theorem lookup_opened (t : HandlerTable) (fd : ℤ) : (t.opened fd).lookup = t.lookup := rfl

theorem lookup_removeFdFromEpoll (t : HandlerTable) (fd : ℤ) :
    (t.removeFdFromEpoll fd).lookup = Function.update t.lookup fd none := by
  funext x
  by_cases hx : x = fd
  · simp [lookup, removeFdFromEpoll, Descriptors.removeFdFromEpoll, hx]
  · simp [lookup, removeFdFromEpoll, Descriptors.removeFdFromEpoll, hx]

theorem lookup_close (t : HandlerTable) (fd : ℤ) :
    (t.close fd).lookup = Function.update t.lookup fd none := by
  funext x
  by_cases hx : x = fd
  · simp [lookup, close, Descriptors.close, hx]
  · simp [lookup, close, Descriptors.close, hx]

theorem lookup_addHandlerToEpoll (hopen : fd ∈ t.descriptors.openFds) (hnone : t.lookup fd = none)
    (h : HandlerPtr) :
    (t.addHandlerToEpoll fd h).lookup = Function.update t.lookup fd (some h) := by
  have hnew : fd ∉ t.descriptors.epollSet := by simpa [lookup] using hnone
  funext x
  by_cases hx : x = fd
  · simp [lookup, addHandlerToEpoll, Descriptors.addHandlerToEpoll, hopen, hnew, hx]
  · simp [lookup, addHandlerToEpoll, Descriptors.addHandlerToEpoll, hopen, hnew, hx]

theorem sysOps_quiet {ops : List SysOp} (hops : ∀ op ∈ ops, op ≠ .epollDel ∧ op ≠ .close) :
    t.sysOps fd ops = t := by
  induction ops with
  | nil => rfl
  | cons op ops ih =>
      obtain ⟨hop, hops⟩ := List.forall_mem_cons.mp hops
      have hsame : t.sysOp fd op = t := by
        cases op <;> first | rfl | exact absurd rfl hop.1 | exact absurd rfl hop.2
      show (t.sysOp fd op).sysOps fd ops = t
      rw [hsame, ih hops]

end HandlerTable

/-! ## What a callback does to one descriptor -/

/-- From what a handler holds and whether it has it watched before the calls
`ops` on `fd` to what it holds after them. -/
inductive Effect (fd : ℤ) : List SysOp → Option ℤ × Bool → Option ℤ × Bool → Prop
  | quiet {ops : List SysOp} (x : Option ℤ × Bool)
      (hops : ∀ op ∈ ops, op ≠ .epollDel ∧ op ≠ .close) : Effect fd ops x x
  | closed : Effect fd [.epollDel, .close] (some fd, true) (none, false)
  | removed : Effect fd [.epollDel] (some fd, true) (some fd, false)

/-- The accounts are kept by the calls on one descriptor. -/
theorem accounts_effect {reserved : Finset ℤ} {t : HandlerTable} {held : HandlerPtr → Option ℤ}
    {watched : HandlerPtr → Bool} {h : HandlerPtr} {fd : ℤ} {ops : List SysOp}
    {x : Option ℤ × Bool}
    (hacc : Accounts reserved t.descriptors.openFds held watched t.lookup)
    (heffect : Effect fd ops (held h, watched h) x) :
    Accounts reserved (t.sysOps fd ops).descriptors.openFds (Function.update held h x.1)
      (Function.update watched h x.2) (t.sysOps fd ops).lookup := by
  generalize hbefore : (held h, watched h) = before at heffect
  cases heffect with
  | quiet _ hops =>
      cases hbefore
      rw [HandlerTable.sysOps_quiet hops, Function.update_eq_self, Function.update_eq_self]
      exact hacc
  | closed =>
      obtain ⟨hheld, -⟩ := Prod.mk.inj hbefore
      have hgone := (hacc.unwatch hheld).release hheld (Function.update_self ..)
      have hlookup : (t.sysOps fd [.epollDel, .close]).lookup =
          Function.update t.lookup fd none := by
        show ((t.removeFdFromEpoll fd).close fd).lookup = _
        rw [HandlerTable.lookup_close, HandlerTable.lookup_removeFdFromEpoll,
          Function.update_idem]
      rw [hlookup]
      exact hgone
  | removed =>
      obtain ⟨hheld, -⟩ := Prod.mk.inj hbefore
      have hout := hacc.unwatch hheld
      have hlookup : (t.sysOps fd [.epollDel]).lookup = Function.update t.lookup fd none :=
        HandlerTable.lookup_removeFdFromEpoll t fd
      rw [hlookup, ← hheld, Function.update_eq_self]
      exact hout

namespace Conn

/-- The descriptor of an open socket, and whether it is in the epoll set. -/
def holding (c : Conn) : Option ℤ × Bool :=
  (if c.isClosed then none else some c.sockFd, registeredAfter c.io)

variable {c c' : Conn}

theorem Exchanged.effect (h : c.Exchanged c') (hfd : c'.sockFd = c.sockFd) :
    Effect c.sockFd (c'.io.drop c.io.length) c.holding c'.holding := by
  obtain ⟨ops, hio, hops⟩ := h.io
  have hdrop : c'.io.drop c.io.length = ops := by rw [hio, List.drop_left]
  have hsame : c'.holding = c.holding := by
    rw [holding, holding, h.isClosed, hfd, hio, registeredAfter_exchange hops]
  rw [hdrop, hsame]
  refine .quiet _ fun op hop => ?_
  rcases hops op hop with rfl | rfl <;> exact ⟨nofun, nofun⟩

theorem closed_effect (hopen : c.isClosed = false) (hregistered : registeredAfter c.io = true)
    (hio : c'.io = c.io ++ [.epollDel, .close]) (hclosed : c'.isClosed = true) :
    Effect c.sockFd (c'.io.drop c.io.length) c.holding c'.holding := by
  have hdrop : c'.io.drop c.io.length = [.epollDel, .close] := by rw [hio, List.drop_left]
  have hbefore : c.holding = (some c.sockFd, true) := by
    rw [holding, hopen, hregistered]
    rfl
  have hafter : c'.holding = (none, false) := by
    rw [holding, hclosed, hio, registeredAfter_append]
    rfl
  rw [hdrop, hbefore, hafter]
  exact .closed

theorem Accounted.forceClose_effect (h : c.Accounted) :
    Effect c.sockFd (c.forceClose.io.drop c.io.length) c.holding c.forceClose.holding := by
  rw [forceClose_eq]
  cases hopen : c.isClosed with
  | true =>
      rw [if_pos rfl]
      exact Exchanged.effect (.refl c) rfl
  | false =>
      rw [if_neg Bool.false_ne_true]
      refine closed_effect hopen ?_ (onClose_io c) (onClose_isClosed c)
      rw [h.registered, hopen]
      rfl

end Conn

namespace TimedConnection

/-- What a handler of the connection holds. Nothing closes the timer. -/
def held (c : TimedConnection) : SockType → Option ℤ
  | .clientSock => c.proxy.client.params.holding.1
  | .backendSock => c.proxy.backend.params.holding.1
  | .proxyTimerSock => some c.timerFd

def holding (c : TimedConnection) (h : SockType) : Option ℤ × Bool :=
  (c.held h, registeredAfter (c.proxy.handlerIo h))

theorem holding_side (c : TimedConnection) (side : Side) :
    c.holding side.sockType = (c.proxy.base side).params.holding := by
  cases side <;> rfl

theorem sockFd_side (c : TimedConnection) (side : Side) :
    c.sockFd side.sockType = (c.proxy.base side).params.sockFd := by
  cases side <;> rfl

variable {c : TimedConnection} {p : ProxyConnection}

theorem effect_side {side : Side}
    (h : Effect (c.proxy.base side).params.sockFd
      ((p.base side).params.io.drop (c.proxy.base side).params.io.length)
      (c.proxy.base side).params.holding (p.base side).params.holding) :
    Effect (c.sockFd side.sockType) (c.callsSince p side.sockType) (c.holding side.sockType)
      ({ c with proxy := p }.holding side.sockType) := by
  rw [sockFd_side, callsSince, ProxyConnection.handlerIo_side, ProxyConnection.handlerIo_side,
    holding_side, holding_side]
  exact h

theorem effect_timer {ops : List SysOp} (hio : p.timerIo = c.proxy.timerIo ++ ops)
    (hops : ∀ op ∈ ops, ∃ seconds nanoseconds, op = .settime seconds nanoseconds) :
    Effect (c.sockFd .proxyTimerSock) (c.callsSince p .proxyTimerSock)
      (c.holding .proxyTimerSock) ({ c with proxy := p }.holding .proxyTimerSock) := by
  have hdrop : c.callsSince p .proxyTimerSock = ops := by
    simp only [callsSince, ProxyConnection.handlerIo, hio, List.drop_left]
  have hregistered : registeredAfter p.timerIo = registeredAfter c.proxy.timerIo := by
    rw [hio]
    clear hio hdrop
    induction ops using List.reverseRecOn with
    | nil => rw [List.append_nil]
    | append_singleton ops op ih =>
        obtain ⟨seconds, nanoseconds, rfl⟩ := hops op (by simp)
        rw [← List.append_assoc, registeredAfter_append, ← ih fun x hx => hops x (by simp [hx])]
        rfl
  have hsame : ({ c with proxy := p } : TimedConnection).holding .proxyTimerSock =
      c.holding .proxyTimerSock := by
    simp only [holding, held, ProxyConnection.handlerIo, hregistered]
  rw [hdrop, hsame]
  refine .quiet _ fun op hop => ?_
  obtain ⟨seconds, nanoseconds, rfl⟩ := hops op hop
  exact ⟨by simp, by simp⟩

theorem effect_refl (c : TimedConnection) (h : SockType) :
    Effect (c.sockFd h) (c.callsSince c.proxy h) (c.holding h) (c.holding h) := by
  have hnone : c.callsSince c.proxy h = [] := List.drop_length
  rw [hnone]
  exact .quiet _ nofun

theorem handled_effect {side : Side} {events : UInt32} {env : EventEnv}
    (hrun : c.proxy.Running) (hreg : registeredAfter (c.proxy.base side).params.io = true)
    (hcall : c.proxy.proxyEventsCallback ⟨side.sockType, events, env⟩ = .ok p) (t : SockType) :
    Effect (c.sockFd t) (c.callsSince p t) (c.holding t) ({ c with proxy := p }.holding t) := by
  have hopen : (c.proxy.base side).params.isClosed = false := by
    rw [(hrun.side side).registered] at hreg
    simpa using hreg
  obtain ⟨q, hquiet, hhandled, rfl⟩ :=
    ProxyConnection.proxyEventsCallback_handled hrun.status hrun.live hcall
  obtain ⟨hme, hpeer⟩ := hhandled.sockFd
  have hsides : ∀ s : Side, Effect (c.sockFd s.sockType) (c.callsSince q s.sockType)
      (c.holding s.sockType) ({ c with proxy := q }.holding s.sockType) := by
    refine side.both (effect_side ?_) (effect_side ?_)
    · rcases hhandled.me_io with ⟨hio, hclosed⟩ | hexchanged
      · refine Conn.closed_effect hopen ?_ hio hclosed
        rw [(hrun.side side).registered, hopen]
        rfl
      · exact hexchanged.effect hme
    · exact hhandled.peer_exchanged.effect hpeer
  cases t with
  | clientSock => exact hsides .client
  | backendSock => exact hsides .backend
  | proxyTimerSock =>
      refine effect_timer (p := { q with timerStatusAndFd := relaxTimer })
        (hquiet.timerIo.trans (List.append_nil _).symm) nofun

/-- The timer ends the connection: what is open of it is closed, and the timer is taken
out of the epoll set. -/
theorem tornDown_effect (hrun : c.proxy.Running) (t : SockType) :
    Effect (c.sockFd t) (c.callsSince c.proxy.tornDown t) (c.holding t)
      ({ c with proxy := c.proxy.tornDown }.holding t) := by
  have hsides : ∀ s : Side, Effect (c.sockFd s.sockType)
      (c.callsSince c.proxy.tornDown s.sockType) (c.holding s.sockType)
      ({ c with proxy := c.proxy.tornDown }.holding s.sockType) := by
    refine fun s => effect_side ?_
    rw [ProxyConnection.tornDown_params]
    exact (hrun.side s).forceClose_effect
  cases t with
  | clientSock => exact hsides .client
  | backendSock => exact hsides .backend
  | proxyTimerSock =>
      have hdrop : c.callsSince c.proxy.tornDown .proxyTimerSock = [.epollDel] :=
        List.drop_left
      have hbefore : c.holding .proxyTimerSock = (some c.timerFd, true) := by
        simp only [holding, held, ProxyConnection.handlerIo, hrun.timer.2.2]
      have hafter : ({ c with proxy := c.proxy.tornDown } : TimedConnection).holding
          .proxyTimerSock = (some c.timerFd, false) := by
        simp only [holding, held, hrun.tornDown.not_registered]
      rw [hdrop, hbefore, hafter]
      exact .removed

/-- **One callback** on the descriptors of its connection. -/
theorem callback_effect {e : SockEvent} (h : c.proxy.Running ∨ c.proxy.Ended)
    (hreg : c.proxy.timerStatusAndFd ≠ timerIsUp →
      registeredAfter (c.proxy.handlerIo e.sockType) = true)
    (hcall : c.proxy.proxyEventsCallback e = .ok p) (t : SockType) :
    Effect (c.sockFd t) (c.callsSince p t) (c.holding t) ({ c with proxy := p }.holding t) := by
  rcases h with hrun | hend
  · rcases ProxyConnection.side_or_timer e with ⟨side, he⟩ | he
    · rw [he] at hcall hreg
      have hwatched := hreg hrun.status
      rw [ProxyConnection.handlerIo_side] at hwatched
      exact handled_effect hrun hwatched hcall t
    · rw [he, ProxyConnection.proxyEventsCallback_timer hrun.status] at hcall
      cases hcall
      rcases ProxyConnection.handleTimerEvent_cases hrun.live with hrearm | hdown | hsame
      · rw [hrearm]
        cases t with
        | clientSock => exact c.effect_refl .clientSock
        | backendSock => exact c.effect_refl .backendSock
        | proxyTimerSock =>
            refine effect_timer (p := c.proxy.rearmed) rfl fun op hop => ?_
            exact ⟨1, 0, List.mem_singleton.mp hop⟩
      · rw [hdown]
        exact tornDown_effect hrun t
      · rw [hsame]
        exact c.effect_refl t
  · obtain rfl := hend.event hcall
    exact c.effect_refl t

end TimedConnection
end Zroxy
