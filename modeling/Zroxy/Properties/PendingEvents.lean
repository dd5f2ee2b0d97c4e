import Zroxy.Properties.ServerRuns

/-!
# Events that are still pending

The kernel reports a descriptor, and the server calls the handler that
`event.data.ptr` pointed to when the descriptor was reported. In between, the
callbacks of the same batch close sockets and accept new ones, and a number that
was reported for one socket may belong to another by the time its turn comes.

`PendingOwned` says what becomes of such an event: the handler it is for has the
number as its own, and it is still the one the epoll set leads to from there, or
its connection has ended and the callback does nothing.
-/

namespace Zroxy

open OffsetMemory Runs Ownership

/-! ## The descriptor of a handler -/

namespace ProxyConnection

variable {p p' : ProxyConnection}

/-- No callback assigns `sock_fd`. -/
theorem proxyEventsCallback_sockFd {e : SockEvent} (h : p.Running ∨ p.Ended)
    (hstep : p.proxyEventsCallback e = .ok p') (s : Side) :
    (p'.base s).params.sockFd = (p.base s).params.sockFd := by
  rcases h with hrun | hend
  · rcases side_or_timer e with ⟨side, he⟩ | he
    · rw [he] at hstep
      obtain ⟨q, -, hhandled, rfl⟩ := proxyEventsCallback_handled hrun.status hrun.live hstep
      obtain ⟨hme, hpeer⟩ := hhandled.sockFd
      rw [base_timerStatus]
      exact side.both (P := fun s => (q.base s).params.sockFd = (p.base s).params.sockFd) hme
        hpeer s
    · rw [he, proxyEventsCallback_timer hrun.status] at hstep
      cases hstep
      rcases hrun.timerEvent with ⟨-, hbase⟩ | hdown
      · rw [hbase]
      · rw [hdown, tornDown_params, Conn.forceClose_sockFd]
  · rw [hend.event hstep]

end ProxyConnection

namespace ServerState

variable {s s' : ServerState} {reserved : Finset ℤ} {h : HandlerPtr} {fd : ℤ}

/-- `sock_fd` of a handler. -/
def sockFd (s : ServerState) : HandlerPtr → Option ℤ :=
  perHandler (some s.listenFd) none (fun c t => some (c.sockFd t)) s.conns

theorem sockFd_of_held (hheld : s.held h = some fd) : s.sockFd h = some fd := by
  rcases h with _ | ⟨i, t⟩
  · simp only [held, perHandler] at hheld
    split at hheld
    · exact hheld
    · cases hheld
  · cases hc : s.conns[i]? with
    | none => simp [held, perHandler, hc] at hheld
    | some c =>
        have hsome : s.held (.proxy (i, t)) = c.held t := perHandler_some hc t
        have hfd : s.sockFd (.proxy (i, t)) = some (c.sockFd t) := perHandler_some hc t
        rw [hsome] at hheld
        rw [hfd]
        cases t with
        | proxyTimerSock => exact hheld
        | clientSock =>
            simp only [TimedConnection.held, Conn.holding] at hheld
            split at hheld
            · cases hheld
            · exact hheld
        | backendSock =>
            simp only [TimedConnection.held, Conn.holding] at hheld
            split at hheld
            · cases hheld
            · exact hheld

theorem held_of_registered (hphase : ∀ c ∈ s.conns, c.proxy.Running ∨ c.proxy.Ended)
    (hregistered : s.registered h = true) : s.held h = s.sockFd h := by
  rcases h with _ | ⟨i, t⟩
  · simp only [registered, perHandler] at hregistered
    simp [held, sockFd, perHandler, hregistered]
  · cases hc : s.conns[i]? with
    | none => simp [registered, perHandler, hc] at hregistered
    | some c =>
        have hwatched : s.registered (.proxy (i, t)) = registeredAfter (c.proxy.handlerIo t) :=
          perHandler_some hc t
        have hheld : s.held (.proxy (i, t)) = c.held t := perHandler_some hc t
        have hfd : s.sockFd (.proxy (i, t)) = some (c.sockFd t) := perHandler_some hc t
        rw [hwatched] at hregistered
        rw [hheld, hfd]
        rcases hphase c (List.mem_of_getElem? hc) with hrun | hend
        · have hopen : ∀ side : Side, t = side.sockType →
              (c.proxy.base side).params.isClosed = false := by
            rintro side rfl
            rw [ProxyConnection.handlerIo_side, (hrun.side side).registered] at hregistered
            simpa using hregistered
          cases t with
          | proxyTimerSock => rfl
          | clientSock =>
              have hclient : c.proxy.client.params.isClosed = false := hopen .client rfl
              simp [TimedConnection.held, Conn.holding, hclient, TimedConnection.sockFd]
          | backendSock =>
              have hbackend : c.proxy.backend.params.isClosed = false := hopen .backend rfl
              simp [TimedConnection.held, Conn.holding, hbackend, TimedConnection.sockFd]
        · rw [hend.not_registered] at hregistered
          cases hregistered

theorem sockFd_acceptNewConn {clients : List Accepted} {ending : AcceptEnd}
    (haccept : acceptNewConn clients ending s = .ok s') (hfd : s.sockFd h = some fd) :
    s'.sockFd h = some fd := by
  induction clients generalizing s with
  | nil =>
      obtain rfl := acceptNewConn_nil haccept
      exact hfd
  | cons a clients ih =>
      obtain ⟨-, s₁, hclient, hrest⟩ := acceptNewConn_cons haccept
      obtain ⟨addrs, d, b, connected, timerFd, -, -, -, rfl⟩ := handleClient_ok hclient
      refine ih hrest ?_
      rcases h with _ | ⟨i, t⟩
      · exact hfd
      · cases hc : s.conns[i]? with
        | none => simp [sockFd, perHandler, hc] at hfd
        | some c =>
            have hi := (List.getElem?_eq_some_iff.mp hc).1
            simp only [sockFd, perHandler, List.getElem?_append_left hi]
            exact hfd

theorem sockFd_handleAcceptingConnections {r : Report}
    (haccept : s.handleAcceptingConnections r = .ok s') (hfd : s.sockFd h = some fd) :
    s'.sockFd h = some fd := by
  rcases handleAcceptingConnections_cases haccept with ⟨-, rfl⟩ | ⟨-, -, hclients⟩ | ⟨-, -, rfl⟩
  · exact hfd
  · exact sockFd_acceptNewConn hclients hfd
  · exact hfd

/-! ## The events of a batch -/

/-- Each pending event is for a handler that has the reported number as its own. -/
def Addressed (s : ServerState) : Prop := ∀ x ∈ s.batch, s.sockFd x.1 = some x.2.fd

/-- The connection of the handler has ended: a callback leaves it as it is. -/
def Silent (s : ServerState) : HandlerPtr → Prop
  | .listener => False
  | .proxy (i, _) => ∃ c, s.conns[i]? = some c ∧
      ∀ e : SockEvent, c.proxy.proxyEventsCallback e = .ok c.proxy

/-- Each pending event is for the handler that owns the reported number still, or
does nothing any more. -/
def PendingOwned (s : ServerState) : Prop :=
  ∀ x ∈ s.batch, s.sockFd x.1 = some x.2.fd ∧
    (s.table.lookup x.2.fd = some x.1 ∨ s.Silent x.1)

/-- **One step** keeps the events addressed. -/
theorem Addressed.step {e : ServerEvent} (haddressed : s.Addressed) (h : s.ServerInv)
    (hacc : Accounted reserved s) (hstep : s.step e = .ok s') : s'.Addressed := by
  cases e with
  | epollWait reports =>
      obtain ⟨-, -, hreport, rfl⟩ := step_epollWait hstep
      intro x hx
      obtain ⟨r, hr, rfl⟩ := List.mem_map.mp hx
      exact sockFd_of_held ((hacc.lookup_iff r.fd _).mp (lookup_of_mem (hreport.2 r hr))).1
  | dispatch =>
      rcases step_dispatch hstep with ⟨r, rest, hbatch, haccept⟩ |
        ⟨i, t, r, rest, c, p, hbatch, hc, hcall, rfl⟩
      · have hrest : s'.batch = rest := by
          rcases handleAcceptingConnections_cases haccept with ⟨-, rfl⟩ | ⟨-, -, hclients⟩ |
            ⟨-, -, rfl⟩
          · rfl
          · exact (acceptNewConn_frame hclients).1
          · rfl
        intro x hx
        refine sockFd_handleAcceptingConnections haccept ?_
        exact haddressed x (by rw [hbatch]; exact List.mem_cons_of_mem _ (hrest ▸ hx))
      · have hphase := (h.callback hbatch hc).1
        have hside := ProxyConnection.proxyEventsCallback_sockFd hphase hcall
        have hsame : sockFd { s with
            table := c.afterCallback p s.table
            conns := s.conns.set i { c with proxy := p }
            batch := rest
            entry := ((p.queued.drop c.proxy.queued.length).reverse.map fun h => (i, h)) ++
              s.entry } = s.sockFd := by
          refine perHandler_set_same hc fun t => ?_
          cases t with
          | clientSock => exact congrArg some (hside .client)
          | backendSock => exact congrArg some (hside .backend)
          | proxyTimerSock => rfl
        intro x hx
        rw [hsame]
        exact haddressed x (by rw [hbatch]; exact List.mem_cons_of_mem _ hx)
  | drain =>
      obtain ⟨i, t, rest, c, hbatch, -, -, rfl⟩ := step_drain hstep
      intro x hx
      have hx' : x ∈ s.batch := hx
      rw [hbatch] at hx'
      cases hx'

theorem ServerInv.pendingOwned (h : s.ServerInv) (hacc : Accounted reserved s)
    (haddressed : s.Addressed) : s.PendingOwned := by
  intro x hx
  have hfd := haddressed x hx
  have hphase : ∀ c ∈ s.conns, c.proxy.Running ∨ c.proxy.Ended := by
    intro c hc
    exact h.loop.conns c.proxy (List.mem_map_of_mem hc)
  -- a handler that is watched is where the table leads
  have howned : s.registered x.1 = true → s.table.lookup x.2.fd = some x.1 := by
    intro hregistered
    have hheld := held_of_registered hphase hregistered
    exact (hacc.lookup_iff x.2.fd x.1).mpr ⟨hheld.trans hfd, hregistered⟩
  refine ⟨hfd, ?_⟩
  obtain ⟨ptr, r⟩ := x
  cases ptr with
  | listener => exact Or.inl (howned (h.listening (List.mem_map_of_mem hx)))
  | proxy g =>
      have hmem : (g.1, (⟨g.2, r.events, r.env⟩ : SockEvent)) ∈ s.loop.batch :=
        List.mem_filterMap.mpr ⟨_, hx, rfl⟩
      obtain ⟨p, hp, -, hwatched⟩ := h.loop.batch _ hmem
      rw [loop_getElem?, Option.map_eq_some_iff] at hp
      obtain ⟨c, hc, rfl⟩ := hp
      by_cases hup : c.proxy.timerStatusAndFd = timerIsUp
      · exact Or.inr ⟨c, hc, ProxyConnection.proxyEventsCallback_up hup⟩
      · refine Or.inl (howned ?_)
        have hsome : s.registered (.proxy g) = registeredAfter (c.proxy.handlerIo g.2) :=
          perHandler_some hc g.2
        rw [hsome]
        exact hwatched hup

end ServerState

/-- **No event goes astray.** Along a run in which a backend is found for every
client, each pending event is for the handler that owns the reported descriptor
still, also where the number has been closed and handed out again since, or it is
for a connection that has ended and does nothing. -/
theorem pending_owned_run (env : MainEnv) (openFds : Finset ℤ) (s : ServerState)
    (hfresh : env.Fresh openFds) (hstart : startServer env openFds = some s)
    (es : List ServerEvent)
    (hfound : EachStep ServerState.step ServerState.BackendsFound s es) :
    Always ServerState.step ServerState.PendingOwned s es := by
  have hinit : s.Addressed := by
    obtain ⟨addrs, d, b, epollFd, -, -, -, rfl⟩ := startServer_ok hstart
    exact fun x hx => absurd hx List.not_mem_nil
  have hall : Always ServerState.step (fun s' => (s'.ServerInv ∧
      s'.Accounted (env.reserved openFds)) ∧ s'.Addressed) s es := by
    refine always_of_eachStep ?_ ⟨⟨startServer_inv hstart, startServer_accounted hfresh hstart⟩,
      hinit⟩ hfound
    rintro s e s' ⟨⟨h, hacc⟩, haddressed⟩ hC hstep
    exact ⟨⟨ServerState.serverInv_step h hacc hstep,
      (ServerState.accounted_step_iff h hacc hstep).mpr hC⟩, haddressed.step h hacc hstep⟩
  exact hall.mono fun s h => h.1.1.pendingOwned h.1.2 h.2

/-- The event on 6 is for the connection that has ended, and 6 is the second
client's backend by then. -/
theorem pending_owned_tearDown : ∃ s, startServer oneAddress {0, 1, 2} = some s ∧
    Always ServerState.step ServerState.PendingOwned s acceptAndTearDown ∧
      (run ServerState.step s (acceptAndTearDown.take 9)).toOption.map
        (fun s' => (s'.batch.map fun x => (x.1, x.2.fd), s'.table.lookup 6)) =
          some ([(.proxy (0, .backendSock), 6)], some (.proxy (1, .backendSock))) :=
  ⟨_, rfl, pending_owned_run oneAddress {0, 1, 2} _ oneAddress_fresh rfl acceptAndTearDown
    (acceptAndTearDown_found rfl), rfl⟩

end Zroxy
