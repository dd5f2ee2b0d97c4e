import Zroxy.Properties.ServerAccounts
import Zroxy.Properties.Teardown

/-!
# Runs of the whole server

What the server keeps besides its accounts is what the event loop inside it
keeps, and that a pending event of the listening socket finds it in the epoll
set. With both, every run is one of the event loop (`server_refines_loop`), and no
descriptor leads to memory that has been freed (`handlers_live_run`).
-/

namespace Zroxy

open OffsetMemory Runs Ownership

namespace ServerState

variable {s s' : ServerState} {reserved : Finset ℤ}

/-- What the server keeps besides its accounts. -/
structure ServerInv (s : ServerState) : Prop where
  loop : s.loop.LoopInv
  nodup : (s.batch.map Prod.fst).Nodup
  listening : HandlerPtr.listener ∈ s.batch.map Prod.fst → registeredAfter s.listenIo = true

/-- A backend is found for every client that the next event brings. -/
def BackendsFound (s : ServerState) : ServerEvent → Prop
  | .dispatch => ∀ r rest, s.batch = (.listener, r) :: rest →
      maskReady r.events .close = false → maskReady r.events .read = true →
      ∀ a ∈ r.clients, a.BackendFound
  | _ => True

theorem acceptNewConn_frame {clients : List Accepted} {ending : AcceptEnd}
    (h : acceptNewConn clients ending s = .ok s') :
    s'.batch = s.batch ∧ s'.listenIo = s.listenIo := by
  induction clients generalizing s with
  | nil =>
      obtain rfl := acceptNewConn_nil h
      exact ⟨rfl, rfl⟩
  | cons a clients ih =>
      obtain ⟨-, s₁, hclient, hrest⟩ := acceptNewConn_cons h
      obtain ⟨addrs, d, b, connected, timerFd, -, -, -, rfl⟩ := handleClient_ok hclient
      have hframe := ih hrest
      exact hframe

theorem handleAcceptingConnections_batch {r : Report}
    (h : s.handleAcceptingConnections r = .ok s') : s'.batch = s.batch := by
  rcases handleAcceptingConnections_cases h with ⟨-, rfl⟩ | ⟨-, -, hclients⟩ | ⟨-, -, rfl⟩
  · rfl
  · exact (acceptNewConn_frame hclients).1
  · rfl

theorem ServerInv.callback (h : ServerInv s) {i : ℕ} {t : SockType} {r : Report}
    {rest : List (HandlerPtr × Report)} {c : TimedConnection}
    (hbatch : s.batch = (.proxy (i, t), r) :: rest) (hc : s.conns[i]? = some c) :
    (c.proxy.Running ∨ c.proxy.Ended) ∧ (c.proxy.timerStatusAndFd ≠ timerIsUp →
      registeredAfter (c.proxy.handlerIo t) = true) := by
  have hbatch' : s.loop.batch = (i, ⟨t, r.events, r.env⟩) :: rest.filterMap connEvent := by
    simp [ServerState.loop, hbatch, connEvent]
  have hp : s.loop.conns[i]? = some c.proxy := by simp [hc]
  exact ⟨h.loop.running_or_ended hp, (h.loop.next hbatch' hp).2⟩

/-- **One step** keeps the accounts exactly if a backend is found for every
client it brings. -/
theorem accounted_step_iff {e : ServerEvent} (h : ServerInv s) (hacc : Accounted reserved s)
    (hstep : s.step e = .ok s') : Accounted reserved s' ↔ s.BackendsFound e := by
  cases e with
  | epollWait reports =>
      obtain ⟨-, -, -, rfl⟩ := step_epollWait hstep
      exact iff_of_true hacc trivial
  | dispatch =>
      rcases step_dispatch hstep with ⟨r, rest, hbatch, haccept⟩ |
        ⟨i, t, r, rest, c, p, hbatch, hc, hcall, rfl⟩
      · -- the accounts do not look at the batch
        have hacc' : Accounted reserved { s with batch := rest } := hacc
        have hlisten : registeredAfter s.listenIo = true := by
          apply h.listening
          rw [hbatch]
          exact List.mem_cons_self
        have hfound : s.BackendsFound .dispatch ↔ (maskReady r.events .close = false →
            maskReady r.events .read = true → ∀ a ∈ r.clients, a.BackendFound) := by
          constructor
          · exact fun hall => hall r rest hbatch
          · intro hone r' rest' hbatch'
            rw [hbatch] at hbatch'
            cases hbatch'
            exact hone
        rw [hfound]
        rcases handleAcceptingConnections_cases haccept with ⟨hclose, rfl⟩ |
          ⟨hclose, hread, hclients⟩ | ⟨hclose, hread, rfl⟩
        · refine iff_of_true (accounted_closeListener hacc' hlisten) ?_
          rw [hclose]
          exact nofun
        · rw [accounted_acceptNewConn_iff hacc' hclients]
          exact ⟨fun hall _ _ => hall, fun hall => hall hclose hread⟩
        · refine iff_of_true hacc' ?_
          rw [hread]
          exact fun _ => nofun
      · obtain ⟨hphase, hreg⟩ := h.callback hbatch hc
        refine iff_of_true (accounted_callback (e := ⟨t, r.events, r.env⟩) hacc hphase hreg hc
          hcall rest _) ?_
        intro r' rest' hbatch'
        rw [hbatch] at hbatch'
        cases hbatch'
  | drain =>
      obtain ⟨i, t, rest, c, -, -, hc, rfl⟩ := step_drain hstep
      exact iff_of_true (accounted_drain hacc hc) trivial

/-- As long as the accounts are in order, a step keeps the rest. -/
theorem serverInv_step {e : ServerEvent} (h : ServerInv s) (hacc : Accounted reserved s)
    (hstep : s.step e = .ok s') : ServerInv s' := by
  have hloop : s'.loop.LoopInv := by
    obtain ⟨les, hles⟩ := step_loop hacc hstep
    exact (always_of_invariant (fun _ e _ => LoopState.loopInv_step e) h.loop les).last hles
  cases e with
  | epollWait reports =>
      obtain ⟨-, -, hreport, rfl⟩ := step_epollWait hstep
      obtain ⟨hnodup, hregistered⟩ := hacc.reported hreport
      have hptrs : ((reports.map fun r => (s.table.ptr r.fd, r)).map Prod.fst) =
          reports.map fun r => s.table.ptr r.fd := List.map_map
      refine ⟨hloop, hptrs ▸ hnodup, ?_⟩
      intro hmem
      obtain ⟨r, hr, hptr⟩ : ∃ r ∈ reports, s.table.ptr r.fd = .listener := by simpa using hmem
      have hreg := hregistered r hr
      rw [hptr] at hreg
      exact hreg
  | dispatch =>
      rcases step_dispatch hstep with ⟨r, rest, hbatch, haccept⟩ |
        ⟨i, t, r, rest, c, p, hbatch, hc, hcall, rfl⟩
      · have hnodup := h.nodup
        rw [hbatch, List.map_cons, List.nodup_cons] at hnodup
        have hframe : s'.batch = rest := handleAcceptingConnections_batch haccept
        refine ⟨hloop, by rw [hframe]; exact hnodup.2, fun hmem => absurd ?_ hnodup.1⟩
        rw [← hframe]
        exact hmem
      · have hnodup := h.nodup
        rw [hbatch, List.map_cons, List.nodup_cons] at hnodup
        refine ⟨hloop, hnodup.2, fun hmem => h.listening ?_⟩
        rw [hbatch]
        exact List.mem_cons_of_mem _ hmem
  | drain =>
      obtain ⟨i, t, rest, c, hbatch, -, -, rfl⟩ := step_drain hstep
      exact ⟨hloop, h.nodup, h.listening⟩

end ServerState

/-! ## The start -/

/-- No number that the kernel hands out while the server is set up is open. -/
def MainEnv.Fresh (env : MainEnv) (openFds : Finset ℤ) : Prop :=
  SocketsFresh openFds (env.addrs.getD []) ∧
    ∀ fd ∈ env.epollFd,
      fd ∉ (connectBackend (env.addrs.getD []) 0 ⟨openFds, ∅, Finset.empty_subset _⟩).1.openFds

/-- What is open and belongs to none of the handlers: what was open before, and
the epoll descriptor. -/
def MainEnv.reserved (env : MainEnv) (openFds : Finset ℤ) : Finset ℤ :=
  env.epollFd.elim openFds fun fd => insert fd openFds

variable {env : MainEnv} {openFds : Finset ℤ} {s : ServerState}

theorem startServer_ok (h : startServer env openFds = some s) :
    ∃ addrs d b epollFd, env.addrs = some addrs ∧
      connectBackend addrs 0 ⟨openFds, ∅, Finset.empty_subset _⟩ = (d, b, true) ∧
      env.epollFd = some epollFd ∧ s = {
        listenFd := b
        listenIo := [.epollAdd]
        table := HandlerTable.addHandlerToEpoll ⟨d.opened epollFd, fun _ => .listener⟩ b .listener
        conns := []
        batch := []
        entry := [] } := by
  unfold startServer at h
  split at h
  · cases h
  · rename_i addrs haddrs
    split at h
    · rename_i d b epollFd hend hlistens hepoll
      cases h
      exact ⟨addrs, d, b, epollFd, haddrs, hend, hepoll, rfl⟩
    · cases h

theorem startServer_accounted (hfresh : env.Fresh openFds)
    (h : startServer env openFds = some s) : s.Accounted (env.reserved openFds) := by
  obtain ⟨addrs, d, b, epollFd, haddrs, hend, hepoll, rfl⟩ := startServer_ok h
  obtain ⟨hsockets, hepollNew⟩ := hfresh
  rw [haddrs, Option.getD_some] at hsockets hepollNew
  have hepollFd := hepollNew epollFd hepoll
  -- the loop over the addresses ended with a socket, so one of them was bound
  have hloop := connectBackend_spec (d := ⟨openFds, ∅, Finset.empty_subset _⟩) 0 hsockets
  rw [hend] at hepollFd
  cases hfirst : firstConnected addrs with
  | none =>
      rw [hfirst] at hloop
      obtain ⟨fd, hnone⟩ := hloop
      rw [hend] at hnone
      cases hnone
  | some b' =>
      rw [hfirst] at hloop
      obtain ⟨hbound, hnew⟩ := hloop
      rw [hend] at hbound
      cases hbound
      obtain ⟨hne, hepollFd⟩ : epollFd ≠ b ∧ epollFd ∉ openFds := by
        simpa [Descriptors.opened] using hepollFd
      have hreserved : env.reserved openFds = insert epollFd openFds := by
        rw [MainEnv.reserved, hepoll]
        rfl
      have hfree : b ∉ insert epollFd openFds := by
        rw [Finset.mem_insert]
        exact not_or.mpr ⟨hne.symm, hnew⟩
      have hnobody : Accounts (insert epollFd openFds) (insert epollFd openFds)
          (fun _ : HandlerPtr => none) (fun _ => false) fun _ => none := Accounts.nobody _
      have hbound := hnobody.acquire (i := .listener) rfl rfl hfree
      rw [Finset.insert_comm] at hbound
      have hlisten := accounts_added (t := ⟨(Descriptors.opened
        ⟨openFds, ∅, Finset.empty_subset _⟩ b).opened epollFd, fun _ => .listener⟩) .listener b
        hbound (Function.update_self ..) rfl
      have hheld : ∀ {β : Type} (x absent : β) (f : TimedConnection → SockType → β),
          ServerState.perHandler x absent f [] =
            Function.update (fun _ => absent) .listener x := by
        intro β x absent f
        funext h
        cases h <;> rfl
      unfold ServerState.Accounted ServerState.held ServerState.registered
      rw [hreserved, hheld, hheld]
      exact hlisten

theorem startServer_inv (h : startServer env openFds = some s) : s.ServerInv := by
  obtain ⟨addrs, d, b, epollFd, -, -, -, rfl⟩ := startServer_ok h
  exact ⟨LoopState.loopInv_init, List.nodup_nil, fun hmem => absurd hmem List.not_mem_nil⟩

/-! ## Runs -/

/-- **Descriptors, exactly.** In all states of a run of the server the open
descriptors are those reserved and those held, with one holder each, and the
epoll set leads from each of its descriptors to the holder, if and only if a
backend is found for every client that is accepted. -/
theorem descriptors_accounted_iff (env : MainEnv) (openFds : Finset ℤ) (s : ServerState)
    (hfresh : env.Fresh openFds) (hstart : startServer env openFds = some s)
    (es : List ServerEvent) :
    Always ServerState.step (·.Accounted (env.reserved openFds)) s es ↔
      EachStep ServerState.step ServerState.BackendsFound s es := by
  refine always_iff_eachStep (I := ServerState.ServerInv) ?_ ?_ (startServer_inv hstart)
    (startServer_accounted hfresh hstart) es
  · intro s e s' h hacc hstep
    exact ServerState.accounted_step_iff h hacc hstep
  · intro s e s' h hacc hstep _
    exact ServerState.serverInv_step h hacc hstep

/-- One address, a socket 3 on it, and the epoll descriptor 4. -/
def oneAddress : MainEnv := ⟨some [⟨some 3, true⟩], true, some 4⟩

theorem oneAddress_fresh : oneAddress.Fresh {0, 1, 2} := by
  refine ⟨⟨by decide, nofun⟩, ?_⟩
  intro fd hfd
  cases hfd
  decide

/-- The kernel answers nothing. -/
def noAnswers : EventEnv :=
  { read := ⟨.wouldBlock, fun _ => ⟨0, true, ⟨.none, .empty, true⟩, ⟨[], .none, .empty⟩⟩⟩
    relay := ⟨true, ⟨.none, .empty, true⟩, [], .wouldBlock⟩
    write := ⟨true, ⟨.none, .empty, true⟩, [], .wouldBlock⟩ }

/-- A client 5 is accepted, its backend is connected as 6, and its timer is 7. -/
def acceptOne : List ServerEvent :=
  [.epollWait [⟨3, epollIn, [⟨5, fun _ _ _ => 0, ⟨some [⟨some 6, true⟩], 0, some 7⟩⟩], .again,
    noAnswers⟩], .dispatch]

/-- A backend is found for every client that is reported. -/
def ServerEvent.ClientsFound : ServerEvent → Prop
  | .epollWait reports => ∀ r ∈ reports, ∀ a ∈ r.clients, a.BackendFound
  | _ => True

theorem ServerState.eachStep_backendsFound {s : ServerState} {es : List ServerEvent}
    (hbatch : ∀ x ∈ s.batch, ∀ a ∈ x.2.clients, a.BackendFound)
    (hes : ∀ e ∈ es, e.ClientsFound) : EachStep ServerState.step BackendsFound s es := by
  induction es generalizing s with
  | nil => trivial
  | cons e es ih =>
      obtain ⟨he, hrest⟩ := List.forall_mem_cons.mp hes
      intro s' hstep
      cases e with
      | epollWait reports =>
          obtain ⟨-, -, -, rfl⟩ := step_epollWait hstep
          refine ⟨trivial, ih (fun x hx => ?_) hrest⟩
          obtain ⟨r, hr, rfl⟩ := List.mem_map.mp hx
          exact he r hr
      | dispatch =>
          constructor
          · intro r rest hhead _ _
            exact hbatch (.listener, r) (by rw [hhead]; exact List.mem_cons_self)
          · refine ih (fun x hx => hbatch x ?_) hrest
            rcases step_dispatch hstep with ⟨r, rest, hhead, haccept⟩ |
              ⟨i, t, r, rest, c, p, hhead, -, -, rfl⟩
            · rw [handleAcceptingConnections_batch haccept] at hx
              rw [hhead]
              exact List.mem_cons_of_mem _ hx
            · rw [hhead]
              exact List.mem_cons_of_mem _ hx
      | drain =>
          obtain ⟨i, t, rest, c, -, -, -, rfl⟩ := step_drain hstep
          exact ⟨trivial, ih hbatch hrest⟩

theorem acceptOne_found {s : ServerState} (hstart : startServer oneAddress {0, 1, 2} = some s) :
    EachStep ServerState.step ServerState.BackendsFound s acceptOne := by
  obtain ⟨addrs, d, b, epollFd, -, -, -, rfl⟩ := startServer_ok hstart
  apply ServerState.eachStep_backendsFound (List.forall_mem_nil _)
  simp [acceptOne, ServerEvent.ClientsFound, Accepted.BackendFound]

/-- Then the client is heard of once, and the timer 7 expires twice. Its second
expiry tears the connection down. Before the event on 6 that was reported with it
has its turn, the numbers 5 and 6 are handed out to a second client and its
backend. In the end the handlers of the first connection are freed. -/
def acceptAndTearDown : List ServerEvent :=
  acceptOne ++
    [.epollWait [⟨5, epollIn, [], .again, noAnswers⟩], .dispatch,
      .epollWait [⟨7, epollIn, [], .again, noAnswers⟩], .dispatch,
      .epollWait [⟨7, epollIn, [], .again, noAnswers⟩,
        ⟨3, epollIn, [⟨5, fun _ _ _ => 0, ⟨some [⟨some 6, true⟩], 0, some 8⟩⟩], .again, noAnswers⟩,
        ⟨6, epollIn, [], .again, noAnswers⟩],
      .dispatch, .dispatch, .dispatch, .drain, .drain, .drain]

theorem acceptAndTearDown_found {s : ServerState}
    (hstart : startServer oneAddress {0, 1, 2} = some s) :
    EachStep ServerState.step ServerState.BackendsFound s acceptAndTearDown := by
  obtain ⟨addrs, d, b, epollFd, -, -, -, rfl⟩ := startServer_ok hstart
  apply ServerState.eachStep_backendsFound (List.forall_mem_nil _)
  simp [acceptAndTearDown, acceptOne, ServerEvent.ClientsFound, Accepted.BackendFound]

/-- One client comes, and finds its backend. -/
theorem descriptors_accounted_one : ∃ s, startServer oneAddress {0, 1, 2} = some s ∧
    (Always ServerState.step (·.Accounted (oneAddress.reserved {0, 1, 2})) s acceptOne ↔
      EachStep ServerState.step ServerState.BackendsFound s acceptOne) :=
  ⟨_, rfl, descriptors_accounted_iff oneAddress {0, 1, 2} _ oneAddress_fresh rfl acceptOne⟩

namespace ServerState

theorem always_accounted {P : ServerState → Prop} {s₀ : ServerState} {reserved : Finset ℤ}
    (hP : ∀ s, s.ServerInv → s.Accounted reserved → P s) (hinv : s₀.ServerInv)
    (hacc : s₀.Accounted reserved) {es : List ServerEvent}
    (hfound : EachStep step BackendsFound s₀ es) : Always step P s₀ es := by
  have hboth : Always step (fun s => s.ServerInv ∧ s.Accounted reserved) s₀ es := by
    refine always_of_eachStep ?_ ⟨hinv, hacc⟩ hfound
    rintro s e s' ⟨h, hacc⟩ hC hstep
    exact ⟨serverInv_step h hacc hstep, (accounted_step_iff h hacc hstep).mpr hC⟩
  exact hboth.mono fun s h => hP s h.1 h.2

end ServerState

/-- **The server is its event loop.** Along a run in which a backend is found for
every client, the connections, the pending events and the free list of the server
are those of a run of the event loop. -/
theorem server_refines_loop (env : MainEnv) (openFds : Finset ℤ) (s : ServerState)
    (hfresh : env.Fresh openFds) (hstart : startServer env openFds = some s)
    (es : List ServerEvent)
    (hfound : EachStep ServerState.step ServerState.BackendsFound s es) :
    Always ServerState.step
      (fun s' => ∃ les, run LoopState.step LoopState.init les = .ok s'.loop) s es := by
  have hinit : s.loop = LoopState.init := by
    obtain ⟨addrs, d, b, epollFd, -, -, -, rfl⟩ := startServer_ok hstart
    rfl
  have hboth : Always ServerState.step (fun s' => (s'.ServerInv ∧
      s'.Accounted (env.reserved openFds)) ∧
        ∃ les, run LoopState.step LoopState.init les = .ok s'.loop) s es := by
    refine always_of_eachStep ?_ ⟨⟨startServer_inv hstart, startServer_accounted hfresh hstart⟩,
      [], by rw [run, hinit]⟩ hfound
    rintro s e s' ⟨⟨h, hacc⟩, les, hles⟩ hC hstep
    obtain ⟨les', hles'⟩ := ServerState.step_loop hacc hstep
    exact ⟨⟨ServerState.serverInv_step h hacc hstep,
      (ServerState.accounted_step_iff h hacc hstep).mpr hC⟩, les ++ les', run_append hles hles'⟩
  exact hboth.mono fun s h => h.2

/-- One client is a step of the loop. -/
theorem server_refines_loop_one : ∃ s, startServer oneAddress {0, 1, 2} = some s ∧
    Always ServerState.step
      (fun s' => ∃ les, run LoopState.step LoopState.init les = .ok s'.loop) s acceptOne :=
  ⟨_, rfl, server_refines_loop oneAddress {0, 1, 2} _ oneAddress_fresh rfl acceptOne
    (acceptOne_found rfl)⟩

/-! ## No handler that has been freed -/

namespace ServerState

/-- The memory of the handler has not been freed, nor that of its connection. -/
def Live (s : ServerState) : HandlerPtr → Prop
  | .listener => True
  | .proxy (i, h) => ∃ c, s.conns[i]? = some c ∧ h ∉ c.proxy.drained ∧ c.proxy.freed = false

/-- Nothing that has been freed is to be met through the epoll set, the pending
events or the free list. -/
structure HandlersLive (s : ServerState) : Prop where
  watched : ∀ fd ptr, s.table.lookup fd = some ptr → s.Live ptr
  pending : ∀ x ∈ s.batch, s.Live x.1
  listed : ∀ h ∈ s.entry, s.Live (.proxy h)

theorem live_of_loop {s : ServerState} {i : ℕ} {h : SockType} {p : ProxyConnection}
    (hp : s.loop.conns[i]? = some p) (hdrained : h ∉ p.drained) (hfreed : p.freed = false) :
    s.Live (.proxy (i, h)) := by
  rw [loop_getElem?, Option.map_eq_some_iff] at hp
  obtain ⟨c, hc, rfl⟩ := hp
  exact ⟨c, hc, hdrained, hfreed⟩

theorem ServerInv.handlersLive {s : ServerState} {reserved : Finset ℤ} (h : s.ServerInv)
    (hacc : s.Accounted reserved) : s.HandlersLive := by
  have honce := h.loop.teardownOnce
  refine ⟨?_, ?_, ?_⟩
  · intro fd ptr hptr
    rcases ptr with _ | ⟨i, t⟩
    · trivial
    · -- a handler that is registered is one of a connection that is running
      obtain ⟨-, hregistered⟩ := (hacc.lookup_iff fd _).mp hptr
      cases hc : s.conns[i]? with
      | none => simp [registered, perHandler, hc] at hregistered
      | some c =>
          have hsome : s.registered (.proxy (i, t)) =
              registeredAfter (c.proxy.handlerIo t) := perHandler_some hc t
          have hreg : registeredAfter (c.proxy.handlerIo t) = true := by
            rw [← hsome]
            exact hregistered
          have hp : s.loop.conns[i]? = some c.proxy := by simp [hc]
          rcases h.loop.running_or_ended hp with hrun | hend
          · refine ⟨c, hc, ?_, hrun.freed⟩
            rw [hrun.drained]
            exact List.not_mem_nil
          · rw [hend.not_registered] at hreg
            cases hreg
  · rintro ⟨_ | ⟨i, t⟩, r⟩ hx
    · trivial
    · have hmem : (i, (⟨t, r.events, r.env⟩ : SockEvent)) ∈ s.loop.batch :=
        List.mem_filterMap.mpr ⟨_, hx, rfl⟩
      obtain ⟨p, hp, hdrained, hfreed⟩ := honce.pending _ hmem
      exact live_of_loop hp hdrained hfreed
  · intro x hx
    obtain ⟨p, hp, hdrained, hfreed⟩ := honce.listed x hx
    exact live_of_loop hp hdrained hfreed

end ServerState

/-- **No freed handler is reached.** Along a run in which a backend is found for
every client, the epoll set, the pending events and the free list lead to
handlers that have not been freed. -/
theorem handlers_live_run (env : MainEnv) (openFds : Finset ℤ) (s : ServerState)
    (hfresh : env.Fresh openFds) (hstart : startServer env openFds = some s)
    (es : List ServerEvent)
    (hfound : EachStep ServerState.step ServerState.BackendsFound s es) :
    Always ServerState.step ServerState.HandlersLive s es :=
  ServerState.always_accounted (fun _ h hacc => h.handlersLive hacc) (startServer_inv hstart)
    (startServer_accounted hfresh hstart) hfound

/-- One connection is freed, and the other is not. -/
theorem handlers_live_tearDown : ∃ s, startServer oneAddress {0, 1, 2} = some s ∧
    Always ServerState.step ServerState.HandlersLive s acceptAndTearDown ∧
      (run ServerState.step s acceptAndTearDown).toOption.map
        (fun s' => s'.conns.map (·.proxy.freed)) = some [true, false] :=
  ⟨_, rfl, handlers_live_run oneAddress {0, 1, 2} _ oneAddress_fresh rfl acceptAndTearDown
    (acceptAndTearDown_found rfl), rfl⟩

end Zroxy
