import Zroxy.Server.LoopProjection

/-!
# The accounts of the whole server

A client for whom a backend is found brings three descriptors, held by the three
handlers of its connection. A client for whom none is found leaves its
connection with a number that is not its own: it was closed again, or never was
open, and the kernel may hand it to anybody (`Stray`).

`descriptors_accounted_iff`: along every run of the server, with numbers handed
out again as the kernel likes, each open descriptor has one holder and each event
goes to the handler of its descriptor, exactly if a backend is found for every
client.
-/

namespace Zroxy

open OffsetMemory Runs Ownership

/-! ## Handing out descriptors -/

section

variable {reserved : Finset ℤ} {t : HandlerTable} {held : HandlerPtr → Option ℤ}
  {watched : HandlerPtr → Bool}

theorem accounts_opened (h : HandlerPtr) (fd : ℤ)
    (hacc : Accounts reserved t.descriptors.openFds held watched t.lookup)
    (hnone : held h = none) (hunwatched : watched h = false)
    (hfresh : fd ∉ t.descriptors.openFds) :
    Accounts reserved (t.opened fd).descriptors.openFds (Function.update held h (some fd)) watched
      (t.opened fd).lookup :=
  hacc.acquire hnone hunwatched hfresh

theorem accounts_added (h : HandlerPtr) (fd : ℤ)
    (hacc : Accounts reserved t.descriptors.openFds held watched t.lookup)
    (hheld : held h = some fd) (hunwatched : watched h = false) :
    Accounts reserved (t.addHandlerToEpoll fd h).descriptors.openFds held
      (Function.update watched h true) (t.addHandlerToEpoll fd h).lookup := by
  have hnone : t.lookup fd = none := hacc.lookup_none hheld hunwatched
  rw [HandlerTable.lookup_addHandlerToEpoll (hacc.mem_live hheld) hnone,
    HandlerTable.addHandlerToEpoll_openFds]
  exact hacc.watch hheld

end

/-- A backend is found for the client: an address connects. -/
def Accepted.BackendFound (a : Accepted) : Prop :=
  ∃ addr ∈ a.env.addrs.getD [], addr.connects = true ∧ addr.socket.isSome = true

namespace ServerState

variable {s s' : ServerState} {reserved : Finset ℤ} {a : Accepted}

/-! ## Callbacks -/

/-- **A callback** keeps the accounts: it works on what its own connection
holds. -/
theorem accounted_callback {i : ℕ} {c : TimedConnection} {p : ProxyConnection} {e : SockEvent}
    (hacc : Accounted reserved s) (hphase : c.proxy.Running ∨ c.proxy.Ended)
    (hreg : c.proxy.timerStatusAndFd ≠ timerIsUp →
      registeredAfter (c.proxy.handlerIo e.sockType) = true)
    (hc : s.conns[i]? = some c) (hcall : c.proxy.proxyEventsCallback e = .ok p)
    (batch : List (HandlerPtr × Report)) (entry : List Handler) :
    Accounted reserved { s with
      table := c.afterCallback p s.table
      conns := s.conns.set i { c with proxy := p }
      batch := batch
      entry := entry } := by
  have heffect := TimedConnection.callback_effect hphase hreg hcall
  have hheld : ∀ t, s.held (.proxy (i, t)) = c.held t := perHandler_some hc
  have hregistered : ∀ t, s.registered (.proxy (i, t)) = registeredAfter (c.proxy.handlerIo t) :=
    perHandler_some hc
  have hbackend := accounts_effect (h := .proxy (i, .backendSock)) hacc
    (by
      rw [hheld, hregistered]
      exact heffect .backendSock)
  have hclient := accounts_effect (h := .proxy (i, .clientSock)) hbackend
    (by
      rw [Function.update_of_ne (by simp), Function.update_of_ne (by simp), hheld, hregistered]
      exact heffect .clientSock)
  have htimer := accounts_effect (h := .proxy (i, .proxyTimerSock)) hclient
    (by
      rw [Function.update_of_ne (by simp), Function.update_of_ne (by simp),
        Function.update_of_ne (by simp), Function.update_of_ne (by simp), hheld, hregistered]
      exact heffect .proxyTimerSock)
  unfold Accounted held registered
  rw [perHandler_set hc, perHandler_set hc]
  exact htimer

theorem accounted_drain {i : ℕ} {t : SockType} {c : TimedConnection} {rest : List Handler}
    (hacc : Accounted reserved s) (hc : s.conns[i]? = some c) :
    Accounted reserved { s with
      conns := s.conns.set i { c with proxy := c.proxy.freeProxyObj t }
      entry := rest } := by
  have hbase : ∀ side, (c.proxy.freeProxyObj t).base side = c.proxy.base side := by
    intro side
    unfold ProxyConnection.freeProxyObj
    simp only
    split <;> cases side <;> rfl
  have htimer : (c.proxy.freeProxyObj t).timerIo = c.proxy.timerIo := by
    unfold ProxyConnection.freeProxyObj
    simp only
    split <;> rfl
  have hheld : ∀ h, ({ c with proxy := c.proxy.freeProxyObj t } : TimedConnection).held h =
      c.held h := by
    intro h
    cases h with
    | clientSock => exact congrArg (·.params.holding.1) (hbase .client)
    | backendSock => exact congrArg (·.params.holding.1) (hbase .backend)
    | proxyTimerSock => rfl
  have hio : ∀ h, (c.proxy.freeProxyObj t).handlerIo h = c.proxy.handlerIo h := by
    intro h
    cases h with
    | clientSock => exact congrArg (·.params.io) (hbase .client)
    | backendSock => exact congrArg (·.params.io) (hbase .backend)
    | proxyTimerSock => exact htimer
  unfold Accounted held registered
  rw [perHandler_set_same hc hheld,
    perHandler_set_same hc fun h => congrArg registeredAfter (hio h)]
  exact hacc

theorem accounted_closeListener (hacc : Accounted reserved s)
    (hlisten : registeredAfter s.listenIo = true) : Accounted reserved s.closeListener := by
  have hheld : s.held .listener = some s.listenFd := if_pos hlisten
  have hregistered : s.registered .listener = true := hlisten
  have hgone := accounts_effect (h := .listener) (x := (none, false)) hacc
    (by
      rw [hheld, hregistered]
      exact .closed)
  have hafter : registeredAfter (s.listenIo ++ [.epollDel, .close]) = false := by
    rw [registeredAfter_append]
    rfl
  have hlistener : ∀ {β : Type} (x y absent : β) (f : TimedConnection → SockType → β),
      perHandler y absent f s.conns =
        Function.update (perHandler x absent f s.conns) .listener y := by
    intro β x y absent f
    funext h
    rcases h with _ | ⟨i, t⟩
    · rfl
    · rfl
  unfold Accounted held registered
  simp only [closeListener, hafter]
  rw [hlistener (if registeredAfter s.listenIo then some s.listenFd else none),
    hlistener (registeredAfter s.listenIo)]
  exact hgone

/-! ## A client -/

theorem Fresh.connectBackend {addrs : List Attempt} (hfresh : s.Fresh a)
    (haddrs : a.env.addrs = some addrs) :
    match firstConnected addrs with
    | some b =>
        connectBackend addrs a.env.uninitialised (s.table.descriptors.opened a.clientSock) =
            ((s.table.descriptors.opened a.clientSock).opened b, b, true) ∧
          b ∉ (s.table.descriptors.opened a.clientSock).openFds
    | none => ∃ b, connectBackend addrs a.env.uninitialised
        (s.table.descriptors.opened a.clientSock) =
          (s.table.descriptors.opened a.clientSock, b, false) := by
  have hsockets := hfresh.2.1
  rw [haddrs] at hsockets
  exact connectBackend_spec a.env.uninitialised hsockets

theorem backendFound_iff {addrs : List Attempt} (haddrs : a.env.addrs = some addrs) :
    a.BackendFound ↔ ∃ b, firstConnected addrs = some b := by
  rw [firstConnected_isSome_iff, Accepted.BackendFound, haddrs]
  rfl

/-- **A client that finds a backend** is accounted for. -/
theorem accounted_handleClient (hacc : Accounted reserved s) (hfresh : s.Fresh a)
    (hfound : a.BackendFound) (h : s.handleClient a = .ok s') : Accounted reserved s' := by
  obtain ⟨addrs, d, b, connected, timerFd, haddrs, hend, htimer, rfl⟩ := handleClient_ok h
  obtain ⟨b', hb'⟩ := (backendFound_iff haddrs).mp hfound
  have hloop := hfresh.connectBackend haddrs
  rw [hb'] at hloop
  obtain ⟨hconnected, hnew⟩ := hloop
  rw [hend] at hconnected
  cases hconnected
  have hclient : a.clientSock ∉ s.table.descriptors.openFds := hfresh.1
  have htimerNew : timerFd ∉
      ((s.table.descriptors.opened a.clientSock).opened b).openFds := by
    have := hfresh.2.2 timerFd htimer
    rw [haddrs, Option.getD_some, hend] at this
    exact this
  have hnone : ∀ t, s.held (.proxy (s.conns.length, t)) = none := perHandler_length
  have hunwatched : ∀ t, s.registered (.proxy (s.conns.length, t)) = false := perHandler_length
  -- the descriptors in the order in which they are opened and watched
  have h₁ := accounts_opened (.proxy (s.conns.length, .clientSock)) a.clientSock hacc (hnone _)
    (hunwatched _) hclient
  have h₂ := accounts_opened (.proxy (s.conns.length, .backendSock)) b h₁
    (by rw [Function.update_of_ne (by simp), hnone]) (hunwatched _) hnew
  have h₃ := accounts_added (.proxy (s.conns.length, .clientSock)) a.clientSock h₂
    (by rw [Function.update_of_ne (by simp), Function.update_self]) (hunwatched _)
  have h₄ := accounts_added (.proxy (s.conns.length, .backendSock)) b h₃
    (by rw [Function.update_self]) (by rw [Function.update_of_ne (by simp), hunwatched])
  have h₅ := accounts_opened (.proxy (s.conns.length, .proxyTimerSock)) timerFd h₄
    (by rw [Function.update_of_ne (by simp), Function.update_of_ne (by simp), hnone])
    (by rw [Function.update_of_ne (by simp), Function.update_of_ne (by simp), hunwatched])
    (by
      rw [HandlerTable.addHandlerToEpoll_openFds, HandlerTable.addHandlerToEpoll_openFds]
      exact htimerNew)
  have h₆ := accounts_added (.proxy (s.conns.length, .proxyTimerSock)) timerFd h₅
    (by rw [Function.update_self])
    (by rw [Function.update_of_ne (by simp), Function.update_of_ne (by simp), hunwatched])
  unfold Accounted held registered
  rw [perHandler_append, perHandler_append]
  exact h₆

/-- What one client more adds: a connection, and open descriptors that the
connection holds. Its backend's is among them only if it was found. -/
theorem handleClient_opens (hfresh : s.Fresh a) (h : s.handleClient a = .ok s') :
    ∃ c, s'.conns = s.conns ++ [c] ∧ s'.listenFd = s.listenFd ∧ s'.listenIo = s.listenIo ∧
      (∃ b, c.held .backendSock = some b) ∧
      ∀ fd ∈ s'.table.descriptors.openFds, fd ∈ s.table.descriptors.openFds ∨
        c.held .clientSock = some fd ∨ c.held .proxyTimerSock = some fd ∨
        (a.BackendFound ∧ c.held .backendSock = some fd) := by
  obtain ⟨addrs, d, b, connected, timerFd, haddrs, hend, htimer, rfl⟩ := handleClient_ok h
  refine ⟨_, rfl, rfl, rfl, ⟨b, rfl⟩, ?_⟩
  intro fd hfd
  have hopen : fd = timerFd ∨ fd ∈ d.openFds := by
    simp only [withHandlers_openFds] at hfd
    exact Finset.mem_insert.mp hfd
  rcases hopen with rfl | hopen
  · exact Or.inr (Or.inr (Or.inl rfl))
  · have hclient : ∀ x ∈ (s.table.descriptors.opened a.clientSock).openFds,
        x ∈ s.table.descriptors.openFds ∨ x = a.clientSock := fun x hx =>
      (Finset.mem_insert.mp hx).symm
    have hloop := hfresh.connectBackend haddrs
    cases hfirst : firstConnected addrs with
    | none =>
        rw [hfirst] at hloop
        obtain ⟨b', hend'⟩ := hloop
        rw [hend] at hend'
        cases hend'
        rcases hclient fd hopen with hold | rfl
        · exact Or.inl hold
        · exact Or.inr (Or.inl rfl)
    | some b' =>
        rw [hfirst] at hloop
        obtain ⟨hend', -⟩ := hloop
        rw [hend] at hend'
        cases hend'
        rcases Finset.mem_insert.mp hopen with rfl | hopen
        · exact Or.inr (Or.inr (Or.inr ⟨(backendFound_iff haddrs).mpr ⟨_, hfirst⟩, rfl⟩))
        · rcases hclient fd hopen with hold | rfl
          · exact Or.inl hold
          · exact Or.inr (Or.inl rfl)

/-! ## A client that finds none -/

/-- A handler holds a number that is not its own: it is reserved, or not open, or
another handler holds it. -/
def Stray (reserved : Finset ℤ) (s : ServerState) : Prop :=
  ∃ h fd, s.held h = some fd ∧ (fd ∈ reserved ∨ fd ∉ s.table.descriptors.openFds ∨
    ∃ h', h' ≠ h ∧ s.held h' = some fd)

theorem Stray.not_accounted (h : Stray reserved s) : ¬ Accounted reserved s := by
  intro hacc
  obtain ⟨g, fd, hheld, hres | hclosed | ⟨g', hne, hheld'⟩⟩ := h
  · exact hacc.not_reserved g fd hheld hres
  · exact hclosed (hacc.mem_live hheld)
  · exact hne (hacc.unique g' g fd hheld' hheld)

theorem held_append {c : TimedConnection} (hconns : s'.conns = s.conns ++ [c])
    (hfd : s'.listenFd = s.listenFd) (hio : s'.listenIo = s.listenIo) {h : HandlerPtr} {fd : ℤ}
    (hheld : s.held h = some fd) :
    s'.held h = some fd ∧ ∀ t, h ≠ .proxy (s.conns.length, t) := by
  have hne : ∀ t, h ≠ .proxy (s.conns.length, t) := by
    rintro t rfl
    have hnone : s.held (.proxy (s.conns.length, t)) = none := perHandler_length t
    rw [hnone] at hheld
    cases hheld
  refine ⟨?_, hne⟩
  unfold held
  rw [hconns, hfd, hio, perHandler_append, Function.update_of_ne (hne _),
    Function.update_of_ne (hne _), Function.update_of_ne (hne _)]
  exact hheld

theorem held_new {c : TimedConnection} (hconns : s'.conns = s.conns ++ [c]) (t : SockType) :
    s'.held (.proxy (s.conns.length, t)) = c.held t := by
  refine perHandler_some ?_ t
  rw [hconns]
  simp

theorem Stray.handleClient (h : Stray reserved s) (hfresh : s.Fresh a)
    (hclient : s.handleClient a = .ok s') : Stray reserved s' := by
  obtain ⟨g, fd, hheld, hstray⟩ := h
  obtain ⟨c, hconns, hfd, hio, -, hopens⟩ := handleClient_opens hfresh hclient
  obtain ⟨hheld', hne⟩ := held_append hconns hfd hio hheld
  refine ⟨g, fd, hheld', ?_⟩
  rcases hstray with hres | hclosed | ⟨g', hne', hother⟩
  · exact Or.inl hres
  · by_cases hopen : fd ∈ s'.table.descriptors.openFds
    · -- the number has been handed out again
      obtain ⟨t, ht⟩ : ∃ t, c.held t = some fd := by
        rcases hopens fd hopen with hold | ht | ht | ⟨-, ht⟩
        · exact absurd hold hclosed
        · exact ⟨_, ht⟩
        · exact ⟨_, ht⟩
        · exact ⟨_, ht⟩
      refine Or.inr (Or.inr ⟨.proxy (s.conns.length, t), (hne t).symm, ?_⟩)
      rw [held_new hconns, ht]
    · exact Or.inr (Or.inl hopen)
  · exact Or.inr (Or.inr ⟨g', hne', (held_append hconns hfd hio hother).1⟩)

/-- **A client that finds no backend** leaves a stray number behind. -/
theorem stray_handleClient (hacc : Accounted reserved s) (hfresh : s.Fresh a)
    (hnone : ¬ a.BackendFound) (h : s.handleClient a = .ok s') : Stray reserved s' := by
  obtain ⟨c, hconns, hfd, hio, ⟨b, hb⟩, hopens⟩ := handleClient_opens hfresh h
  refine ⟨.proxy (s.conns.length, .backendSock), b, by rw [held_new hconns, hb], ?_⟩
  by_cases hopen : b ∈ s'.table.descriptors.openFds
  · rcases hopens b hopen with hold | ht | ht | ⟨hfound, -⟩
    · rcases (hacc.mem_iff b).mp hold with hres | ⟨g, hg⟩
      · exact Or.inl hres
      · obtain ⟨hg', hne⟩ := held_append hconns hfd hio hg
        exact Or.inr (Or.inr ⟨g, hne _, hg'⟩)
    · exact Or.inr (Or.inr ⟨.proxy (s.conns.length, .clientSock), by simp,
        by rw [held_new hconns, ht]⟩)
    · exact Or.inr (Or.inr ⟨.proxy (s.conns.length, .proxyTimerSock), by simp,
        by rw [held_new hconns, ht]⟩)
    · exact absurd hfound hnone
  · exact Or.inr (Or.inl hopen)

theorem Stray.acceptNewConn {clients : List Accepted} {ending : AcceptEnd}
    (h : Stray reserved s) (haccept : ServerState.acceptNewConn clients ending s = .ok s') :
    Stray reserved s' := by
  induction clients generalizing s with
  | nil =>
      obtain rfl := acceptNewConn_nil haccept
      exact h
  | cons a clients ih =>
      obtain ⟨hfresh, s₁, hclient, hrest⟩ := acceptNewConn_cons haccept
      exact ih (h.handleClient hfresh hclient) hrest

/-- **A loop of `accept`** keeps the accounts exactly if every client finds a
backend. -/
theorem accounted_acceptNewConn_iff {clients : List Accepted} {ending : AcceptEnd}
    (hacc : Accounted reserved s) (h : acceptNewConn clients ending s = .ok s') :
    Accounted reserved s' ↔ ∀ a ∈ clients, a.BackendFound := by
  induction clients generalizing s with
  | nil =>
      obtain rfl := acceptNewConn_nil h
      exact iff_of_true hacc nofun
  | cons a clients ih =>
      obtain ⟨hfresh, s₁, hclient, hrest⟩ := acceptNewConn_cons h
      rw [List.forall_mem_cons]
      by_cases hfound : a.BackendFound
      · rw [ih (accounted_handleClient hacc hfresh hfound hclient) hrest]
        exact (and_iff_right hfound).symm
      · have hstray := (stray_handleClient hacc hfresh hfound hclient).acceptNewConn hrest
        exact iff_of_false hstray.not_accounted fun hall => hfound hall.1

end ServerState
end Zroxy
