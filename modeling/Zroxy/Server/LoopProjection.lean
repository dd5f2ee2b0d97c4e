import Zroxy.Server.DescriptorAccounts

/-!
# The event loop inside the server

`ServerState.loop` forgets the numbers: what is left is the event loop over its
connections. As long as the accounts are in order, every step of the server is
some steps of that loop (`step_loop`), because a number then leads to the handler
that is registered under it.
-/

namespace Zroxy

open OffsetMemory Runs Ownership

namespace ServerState

/-- A function of the handlers, given on those of each connection; `absent` for
handlers of connections that have not been made. -/
def perHandler {β : Type*} (listener absent : β) (f : TimedConnection → SockType → β)
    (conns : List TimedConnection) : HandlerPtr → β
  | .listener => listener
  | .proxy (i, h) =>
      match conns[i]? with
      | none => absent
      | some c => f c h

def held (s : ServerState) : HandlerPtr → Option ℤ :=
  perHandler (if registeredAfter s.listenIo then some s.listenFd else none) none
    TimedConnection.held s.conns

def registered (s : ServerState) : HandlerPtr → Bool :=
  perHandler (registeredAfter s.listenIo) false
    (fun c h => registeredAfter (c.proxy.handlerIo h)) s.conns

/-- The open descriptors are `reserved` and those held, and the epoll set leads
from a descriptor to its holder. -/
def Accounted (reserved : Finset ℤ) (s : ServerState) : Prop :=
  Accounts reserved s.table.descriptors.openFds s.held s.registered s.table.lookup

def connEvent (x : HandlerPtr × Report) : Option (ℕ × SockEvent) :=
  match x.1 with
  | .listener => none
  | .proxy (i, h) => some (i, ⟨h, x.2.events, x.2.env⟩)

def connHandler : HandlerPtr → Option Handler
  | .listener => none
  | .proxy h => some h

theorem connEvent_handlerOf (x : HandlerPtr × Report) :
    (connEvent x).map LoopState.handlerOf = connHandler x.1 := by
  obtain ⟨_ | ⟨i, t⟩, r⟩ := x <;> rfl

def loop (s : ServerState) : LoopState where
  conns := s.conns.map TimedConnection.proxy
  batch := s.batch.filterMap connEvent
  entry := s.entry

variable {s s' : ServerState}

@[simp] theorem loop_getElem? (s : ServerState) (i : ℕ) :
    s.loop.conns[i]? = s.conns[i]?.map TimedConnection.proxy :=
  List.getElem?_map ..

section

variable {β : Type*} {listener absent : β} {f : TimedConnection → SockType → β}
  {conns : List TimedConnection} {i : ℕ} {c c' : TimedConnection}

theorem perHandler_some (hc : conns[i]? = some c) (h : SockType) :
    perHandler listener absent f conns (.proxy (i, h)) = f c h := by
  simp only [perHandler, hc]

theorem perHandler_length (h : SockType) :
    perHandler listener absent f conns (.proxy (conns.length, h)) = absent := by
  simp [perHandler]

theorem eq_updates {g g' : HandlerPtr → β}
    (hother : ∀ h, (∀ t, h ≠ .proxy (i, t)) → g' h = g h) :
    g' = Function.update (Function.update (Function.update g
      (.proxy (i, .clientSock)) (g' (.proxy (i, .clientSock))))
      (.proxy (i, .backendSock)) (g' (.proxy (i, .backendSock))))
      (.proxy (i, .proxyTimerSock)) (g' (.proxy (i, .proxyTimerSock))) := by
  funext h
  by_cases hi : ∃ t, h = .proxy (i, t)
  · obtain ⟨t, rfl⟩ := hi
    cases t <;> simp [Function.update]
  · have hne : ∀ t, h ≠ .proxy (i, t) := fun t ht => hi ⟨t, ht⟩
    rw [Function.update_of_ne (hne _), Function.update_of_ne (hne _),
      Function.update_of_ne (hne _), hother h hne]

theorem perHandler_append :
    perHandler listener absent f (conns ++ [c]) =
      Function.update (Function.update (Function.update (perHandler listener absent f conns)
        (.proxy (conns.length, .clientSock)) (f c .clientSock))
        (.proxy (conns.length, .backendSock)) (f c .backendSock))
        (.proxy (conns.length, .proxyTimerSock)) (f c .proxyTimerSock) := by
  have hnew : (conns ++ [c])[conns.length]? = some c := by simp
  have hother : ∀ h, (∀ t, h ≠ .proxy (conns.length, t)) →
      perHandler listener absent f (conns ++ [c]) h = perHandler listener absent f conns h := by
    rintro (_ | ⟨j, t⟩) hne
    · rfl
    · have hj : j ≠ conns.length := fun hj => hne t (by rw [hj])
      have hold : (conns ++ [c])[j]? = conns[j]? := by
        rcases Nat.lt_or_ge j conns.length with hlt | hge
        · rw [List.getElem?_append_left hlt]
        · rw [List.getElem?_eq_none (by simp; omega), List.getElem?_eq_none hge]
      simp only [perHandler, hold]
  have heq := eq_updates hother
  rw [perHandler_some hnew, perHandler_some hnew, perHandler_some hnew] at heq
  exact heq

theorem perHandler_set (hc : conns[i]? = some c) :
    perHandler listener absent f (conns.set i c') =
      Function.update (Function.update (Function.update (perHandler listener absent f conns)
        (.proxy (i, .backendSock)) (f c' .backendSock))
        (.proxy (i, .clientSock)) (f c' .clientSock))
        (.proxy (i, .proxyTimerSock)) (f c' .proxyTimerSock) := by
  have hnew : (conns.set i c')[i]? = some c' :=
    List.getElem?_set_self (List.getElem?_eq_some_iff.mp hc).1
  have hother : ∀ h, (∀ t, h ≠ .proxy (i, t)) →
      perHandler listener absent f (conns.set i c') h = perHandler listener absent f conns h := by
    rintro (_ | ⟨j, t⟩) hne
    · rfl
    · have hj : i ≠ j := fun hj => hne t (by rw [hj])
      simp only [perHandler, List.getElem?_set_ne hj]
  have heq := eq_updates hother
  have hne : HandlerPtr.proxy (i, .clientSock) ≠ .proxy (i, .backendSock) := by simp
  rw [perHandler_some hnew, perHandler_some hnew, perHandler_some hnew,
    Function.update_comm hne] at heq
  exact heq

theorem perHandler_set_same (hc : conns[i]? = some c) (hf : ∀ h, f c' h = f c h) :
    perHandler listener absent f (conns.set i c') = perHandler listener absent f conns := by
  have hold : ∀ h, f c' h = perHandler listener absent f conns (.proxy (i, h)) :=
    fun h => (hf h).trans (perHandler_some hc h).symm
  rw [perHandler_set hc, hold, hold, hold, Function.update_eq_self, Function.update_eq_self,
    Function.update_eq_self]

end

theorem registered_loop (s : ServerState) (h : Handler) :
    s.loop.registered h = s.registered (.proxy h) := by
  simp only [LoopState.registered, registered, perHandler, loop_getElem?]
  cases s.conns[h.1]? <;> rfl

/-! ## What each step does -/

theorem step_epollWait {reports : List Report} (h : s.step (.epollWait reports) = .ok s') :
    s.batch = [] ∧ s.entry = [] ∧ s.Reportable reports ∧
      s' = { s with batch := reports.map fun r => (s.table.ptr r.fd, r) } := by
  simp only [step] at h
  split at h
  · rename_i hcond
    simp only [Bool.and_eq_true, List.isEmpty_iff, decide_eq_true_eq] at hcond
    cases h
    exact ⟨hcond.1.1, hcond.1.2, hcond.2, rfl⟩
  · cases h

theorem step_dispatch (h : s.step .dispatch = .ok s') :
    (∃ r rest, s.batch = (.listener, r) :: rest ∧
      { s with batch := rest }.handleAcceptingConnections r = .ok s') ∨
    ∃ i t r rest c p, s.batch = (.proxy (i, t), r) :: rest ∧ s.conns[i]? = some c ∧
      c.proxy.proxyEventsCallback ⟨t, r.events, r.env⟩ = .ok p ∧
      s' = { s with
        table := c.afterCallback p s.table
        conns := s.conns.set i { c with proxy := p }
        batch := rest
        entry := ((p.queued.drop c.proxy.queued.length).reverse.map fun h => (i, h)) ++
          s.entry } := by
  simp only [step, dispatch] at h
  split at h
  · cases h
  · rename_i r rest hbatch
    exact Or.inl ⟨r, rest, hbatch, h⟩
  · rename_i i t r rest hbatch
    split at h
    · cases h
    · rename_i c hc
      split at h
      · cases h
      · rename_i p hp
        cases h
        exact Or.inr ⟨i, t, r, rest, c, p, hbatch, hc, hp, rfl⟩

theorem step_drain (h : s.step .drain = .ok s') :
    ∃ i t rest c, s.batch = [] ∧ s.entry = (i, t) :: rest ∧ s.conns[i]? = some c ∧
      s' = { s with
        conns := s.conns.set i { c with proxy := c.proxy.freeProxyObj t }
        entry := rest } := by
  simp only [step, drain] at h
  split at h
  · rename_i i t rest hbatch hentry
    split at h
    · cases h
    · rename_i c hc
      cases h
      exact ⟨i, t, rest, c, hbatch, hentry, hc, rfl⟩
  · cases h

theorem handleAcceptingConnections_cases {r : Report}
    (h : s.handleAcceptingConnections r = .ok s') :
    (maskReady r.events .close = true ∧ s' = s.closeListener) ∨
    (maskReady r.events .close = false ∧ maskReady r.events .read = true ∧
      acceptNewConn r.clients r.ending s = .ok s') ∨
    (maskReady r.events .close = false ∧ maskReady r.events .read = false ∧ s' = s) := by
  unfold handleAcceptingConnections at h
  cases hclose : maskReady r.events .close with
  | true =>
      rw [hclose, if_pos rfl] at h
      cases h
      exact Or.inl ⟨rfl, rfl⟩
  | false =>
      rw [hclose, if_neg Bool.false_ne_true] at h
      cases hread : maskReady r.events .read with
      | true =>
          rw [hread, if_pos rfl] at h
          exact Or.inr (Or.inl ⟨rfl, rfl, h⟩)
      | false =>
          rw [hread, if_neg Bool.false_ne_true] at h
          cases h
          exact Or.inr (Or.inr ⟨rfl, rfl, rfl⟩)

/-- The table with the three handlers of a new connection in it. -/
def withHandlers (s : ServerState) (d : Descriptors) (clientSock backendSocketFd timerFd : ℤ) :
    HandlerTable :=
  let t : HandlerTable := { s.table with descriptors := d }
  let t := t.addHandlerToEpoll clientSock (.proxy (s.conns.length, .clientSock))
  let t := t.addHandlerToEpoll backendSocketFd (.proxy (s.conns.length, .backendSock))
  (t.opened timerFd).addHandlerToEpoll timerFd (.proxy (s.conns.length, .proxyTimerSock))

theorem withHandlers_openFds (s : ServerState) (d : Descriptors) (c b t : ℤ) :
    (s.withHandlers d c b t).descriptors.openFds = insert t d.openFds := by
  simp only [withHandlers, HandlerTable.opened, Descriptors.opened,
    HandlerTable.addHandlerToEpoll_openFds]

theorem handleClient_ok {a : Accepted} (h : s.handleClient a = .ok s') :
    ∃ addrs d b connected timerFd, a.env.addrs = some addrs ∧
      connectBackend addrs a.env.uninitialised (s.table.descriptors.opened a.clientSock) =
        (d, b, connected) ∧
      a.env.timerFd = some timerFd ∧
      s' = { s with
        table := s.withHandlers d a.clientSock b timerFd
        conns := s.conns ++
          [⟨.newConnection a.heap a.clientSock .sslConn b .sslConn, timerFd⟩] } := by
  unfold handleClient handleClientConnection at h
  cases haddrs : a.env.addrs with
  | none =>
      rw [haddrs] at h
      cases h
  | some addrs =>
      rcases hend : connectBackend addrs a.env.uninitialised
        (s.table.descriptors.opened a.clientSock) with ⟨d, b, connected⟩
      cases htimer : a.env.timerFd with
      | none =>
          simp only [haddrs, HandlerTable.opened, hend, htimer] at h
          cases h
      | some timerFd =>
          simp only [haddrs, HandlerTable.opened, hend, htimer] at h
          cases h
          exact ⟨addrs, d, b, connected, timerFd, rfl, hend, rfl, rfl⟩

theorem acceptNewConn_cons {a : Accepted} {clients : List Accepted} {ending : AcceptEnd}
    (h : acceptNewConn (a :: clients) ending s = .ok s') :
    s.Fresh a ∧ ∃ s₁, s.handleClient a = .ok s₁ ∧ acceptNewConn clients ending s₁ = .ok s' := by
  rw [acceptNewConn] at h
  split at h
  · rename_i hfresh
    exact ⟨hfresh, bind_ok h⟩
  · cases h

theorem acceptNewConn_nil {ending : AcceptEnd} (h : acceptNewConn [] ending s = .ok s') :
    s' = s := by
  cases ending with
  | again => exact (Except.ok.inj h).symm
  | failed => cases h

/-! ## The steps of the loop -/

theorem handleClient_loop {a : Accepted} (h : s.handleClient a = .ok s') :
    ∃ e, s.loop.step e = .ok s'.loop := by
  obtain ⟨addrs, d, b, connected, timerFd, -, -, -, rfl⟩ := handleClient_ok h
  refine ⟨.accept a.heap a.clientSock .sslConn b .sslConn, ?_⟩
  simp [LoopState.step, loop]

theorem acceptNewConn_loop {clients : List Accepted} {ending : AcceptEnd}
    (h : acceptNewConn clients ending s = .ok s') :
    ∃ les, run LoopState.step s.loop les = .ok s'.loop := by
  induction clients generalizing s with
  | nil =>
      obtain rfl := acceptNewConn_nil h
      exact ⟨[], rfl⟩
  | cons a clients ih =>
      obtain ⟨-, s₁, hclient, hrest⟩ := acceptNewConn_cons h
      obtain ⟨e, he⟩ := handleClient_loop hclient
      obtain ⟨les, hles⟩ := ih hrest
      refine ⟨e :: les, ?_⟩
      rw [run, he]
      exact hles

/-- The listening socket is none of the loop's business. -/
theorem handleAcceptingConnections_loop {r : Report}
    (h : s.handleAcceptingConnections r = .ok s') :
    ∃ les, run LoopState.step s.loop les = .ok s'.loop := by
  rcases handleAcceptingConnections_cases h with ⟨-, rfl⟩ | ⟨-, -, haccept⟩ | ⟨-, -, rfl⟩
  · exact ⟨[], rfl⟩
  · exact acceptNewConn_loop haccept
  · exact ⟨[], rfl⟩

theorem lookup_of_mem {t : HandlerTable} {fd : ℤ} (h : fd ∈ t.descriptors.epollSet) :
    t.lookup fd = some (t.ptr fd) := by
  rw [HandlerTable.lookup, if_pos h]

/-- The handlers of a batch are different ones, and registered. -/
theorem Accounted.reported {reserved : Finset ℤ} (h : Accounted reserved s)
    {reports : List Report} (hreport : s.Reportable reports) :
    (reports.map fun r => s.table.ptr r.fd).Nodup ∧
      ∀ r ∈ reports, s.registered (s.table.ptr r.fd) = true := by
  have hptr : ∀ r ∈ reports, s.held (s.table.ptr r.fd) = some r.fd ∧
      s.registered (s.table.ptr r.fd) = true := by
    intro r hr
    exact (h.lookup_iff r.fd _).mp (lookup_of_mem (hreport.2 r hr))
  refine ⟨?_, fun r hr => (hptr r hr).2⟩
  rw [List.Nodup, List.pairwise_map]
  refine (List.pairwise_map.mp hreport.1).imp_of_mem ?_
  intro r r' hr hr' hne heq
  have hheld := (hptr r hr).1
  rw [heq, (hptr r' hr').1] at hheld
  exact hne (Option.some.inj hheld).symm

theorem Accounted.loop_reportable {reserved : Finset ℤ} (h : Accounted reserved s)
    {reports : List Report} (hreport : s.Reportable reports) :
    s.loop.Reportable ((reports.map fun r => (s.table.ptr r.fd, r)).filterMap connEvent) := by
  obtain ⟨hnodup, hregistered⟩ := h.reported hreport
  refine ⟨?_, ?_⟩
  · have hhandlers : ((reports.map fun r => (s.table.ptr r.fd, r)).filterMap connEvent).map
        LoopState.handlerOf = (reports.map fun r => s.table.ptr r.fd).filterMap connHandler := by
      rw [List.map_filterMap, List.filterMap_map, List.filterMap_map]
      exact List.filterMap_congr fun r _ => connEvent_handlerOf _
    rw [hhandlers]
    refine hnodup.filterMap ?_
    rintro (_ | g) (_ | g') b hb hb' <;> cases hb <;> cases hb'
    rfl
  · intro x hx
    obtain ⟨y, hy, hxy⟩ := List.mem_filterMap.mp hx
    obtain ⟨r, hr, rfl⟩ := List.mem_map.mp hy
    have hreg := hregistered r hr
    have hhandler := connEvent_handlerOf (s.table.ptr r.fd, r)
    rw [hxy] at hhandler
    cases hptr : s.table.ptr r.fd with
    | listener =>
        rw [hptr] at hhandler
        cases hhandler
    | proxy g =>
        rw [hptr] at hhandler hreg
        obtain rfl : LoopState.handlerOf x = g := Option.some.inj hhandler
        rw [registered_loop]
        exact hreg

theorem epollWait_loop {reserved : Finset ℤ} {reports : List Report} (h : Accounted reserved s)
    (hstep : s.step (.epollWait reports) = .ok s') :
    s.loop.step (.epollWait s'.loop.batch) = .ok s'.loop := by
  obtain ⟨hbatch, hentry, hreport, rfl⟩ := step_epollWait hstep
  have hloop : s.loop.Reportable
      ({ s with batch := reports.map fun r => (s.table.ptr r.fd, r) } : ServerState).loop.batch :=
    h.loop_reportable hreport
  have hidle : s.loop.batch = [] ∧ s.loop.entry = [] := by
    simp [loop, hbatch, hentry]
  simp only [LoopState.step, hidle, List.isEmpty_nil, Bool.true_and]
  rw [if_pos (decide_eq_true hloop)]
  simp [loop, hentry]

theorem dispatch_loop (hstep : s.step .dispatch = .ok s') :
    ∃ les, run LoopState.step s.loop les = .ok s'.loop := by
  rcases step_dispatch hstep with ⟨r, rest, hbatch, haccept⟩ |
    ⟨i, t, r, rest, c, p, hbatch, hc, hcall, rfl⟩
  · have hsame : s.loop = ({ s with batch := rest } : ServerState).loop := by
      simp only [loop, hbatch]
      rfl
    rw [hsame]
    exact handleAcceptingConnections_loop haccept
  · have hbatch' : s.loop.batch = (i, ⟨t, r.events, r.env⟩) :: rest.filterMap connEvent := by
      simp [loop, hbatch, connEvent]
    have hp : s.loop.conns[i]? = some c.proxy := by simp [hc]
    refine ⟨[.dispatch], ?_⟩
    simp only [run, LoopState.step, LoopState.dispatch, hbatch', hp, hcall, Except.bind]
    simp [loop, List.map_set]

theorem drain_loop (hstep : s.step .drain = .ok s') : s.loop.step .drain = .ok s'.loop := by
  obtain ⟨i, t, rest, c, hbatch, hentry, hc, rfl⟩ := step_drain hstep
  have hp : s.loop.conns[i]? = some c.proxy := by simp [hc]
  have hlists : s.loop.batch = [] ∧ s.loop.entry = (i, t) :: rest := by
    simp [loop, hbatch, hentry]
  simp only [LoopState.step, LoopState.drain, hlists, hp]
  simp [loop, hbatch, List.map_set]

/-- **One step of the server** is some steps of the loop inside it. -/
theorem step_loop {reserved : Finset ℤ} {e : ServerEvent} (h : Accounted reserved s)
    (hstep : s.step e = .ok s') : ∃ les, run LoopState.step s.loop les = .ok s'.loop := by
  cases e with
  | epollWait reports =>
      refine ⟨[.epollWait s'.loop.batch], ?_⟩
      rw [run, epollWait_loop h hstep]
      rfl
  | dispatch => exact dispatch_loop hstep
  | drain =>
      refine ⟨[.drain], ?_⟩
      rw [run, drain_loop hstep]
      rfl

end ServerState
end Zroxy
