import Zroxy.Events.ProxyEffects

/-!
# The idle timer

`timer_status_and_fd` holds `RELAX_TIMER` after a client or backend event,
`TIMER_RELAXED` after an expiry that found one, `TIMER_IS_UP` after an expiry
that found none. A new connection holds neither: `calloc` left 0 there, where
the handler expects the timer descriptor (`timer_status_and_fd > 0`), and an
expiry that finds 0 does nothing.

`idleLaw_iff`: the law of the timer holds along a run exactly when the first
event of the run is no expiry.
-/

namespace Zroxy

open OffsetMemory Runs

namespace ProxyConnection

/-- What an expiry has to do. With activity since the last one the timer is set
again, without it both sockets are closed and all three handlers released. -/
def ExpiryObeys (p : ProxyConnection) (active : Bool) (p' : ProxyConnection) : Prop :=
  if active then
    p'.timerStatusAndFd = timerRelaxed ∧ p'.timerIo = p.timerIo ++ [.settime 1 0] ∧ p'.Live
  else
    p'.timerStatusAndFd = timerIsUp ∧ p'.timerIo = p.timerIo ++ [.epollDel] ∧
      (∀ s, (p'.base s).setFree = true ∧ (p'.base s).params.isClosed = true) ∧
      p'.queued = p.queued ++ [.backendSock, .clientSock, .proxyTimerSock]

/-- Every expiry of a run that finds the connection alive obeys the law.
`active` says whether a client or backend event has been handled since the last
expiry, or since creation. -/
def IdleLaw : ProxyConnection → Bool → List SockEvent → Prop
  | _, _, [] => True
  | p, active, e :: es => ∀ p', p.proxyEventsCallback e = .ok p' →
      (e.sockType = .proxyTimerSock → p.Live → p.ExpiryObeys active p') ∧
      p'.IdleLaw (e.sockType ≠ .proxyTimerSock) es

/-- The status says what has happened: `active` while the connection lives, and
`TIMER_IS_UP` afterwards. -/
def Tracks (p : ProxyConnection) (active : Bool) : Prop :=
  (p.Live ∧ p.timerStatusAndFd = if active then relaxTimer else timerRelaxed) ∨
    (¬ p.Live ∧ p.timerStatusAndFd = timerIsUp)

theorem tornDown_obeys (p : ProxyConnection) : p.ExpiryObeys false p.tornDown := by
  refine ⟨rfl, rfl, fun s => ?_, rfl⟩
  cases s <;> exact ⟨rfl, Conn.forceClose_isClosed _⟩

theorem tornDown_not_live (p : ProxyConnection) : ¬ p.tornDown.Live := by
  intro h
  exact Bool.false_ne_true (h .client).symm

/-- **One event**: an expiry obeys the law, and the status tracks the activity
again. -/
theorem tracks_proxyEventsCallback {p p' : ProxyConnection} {active : Bool} {e : SockEvent}
    (h : p.Tracks active) (hstep : p.proxyEventsCallback e = .ok p') :
    (e.sockType = .proxyTimerSock → p.Live → p.ExpiryObeys active p') ∧
      p'.Tracks (e.sockType ≠ .proxyTimerSock) := by
  rcases h with ⟨hlive, hstatus⟩ | ⟨hdead, hup⟩
  · have hup : p.timerStatusAndFd ≠ timerIsUp := by
      rw [hstatus]
      cases active <;> decide
    rcases side_or_timer e with ⟨side, he⟩ | he <;> rw [he] at hstep ⊢
    · -- I/O: the status becomes `RELAX_TIMER`
      obtain ⟨q, hquiet, -, rfl⟩ := proxyEventsCallback_handled hup hlive hstep
      have hne := side.sockType_ne_timer
      exact ⟨fun htimer => absurd htimer hne,
        Or.inl ⟨(hquiet.live hlive).timerStatus _, by simp [hne]⟩⟩
    · rw [proxyEventsCallback_timer hup] at hstep
      cases hstep
      cases active with
      | true =>
          rw [handleTimerEvent_relax hstatus]
          have hlive' := hlive.rearmed
          exact ⟨fun _ _ => ⟨rfl, rfl, hlive'⟩, Or.inl ⟨hlive', by simp [rearmed]⟩⟩
      | false =>
          rw [handleTimerEvent_idle hlive (Or.inl hstatus)]
          exact ⟨fun _ _ => tornDown_obeys p, Or.inr ⟨tornDown_not_live p, rfl⟩⟩
  · rw [proxyEventsCallback_up hup] at hstep
    cases hstep
    exact ⟨fun _ hlive => absurd hlive hdead, Or.inr ⟨hdead, hup⟩⟩

theorem idleLaw_of_tracks {p : ProxyConnection} {active : Bool} (h : p.Tracks active)
    (es : List SockEvent) : p.IdleLaw active es := by
  induction es generalizing p active with
  | nil => trivial
  | cons e es ih =>
      intro p' hstep
      obtain ⟨hobeys, hnext⟩ := tracks_proxyEventsCallback h hstep
      exact ⟨hobeys, ih hnext⟩

theorem newConnection_live (heap : Side → ℕ → Mem Byte) (clientFd : ℤ) (clientType : ConnType)
    (backendFd : ℤ) (backendType : ConnType) :
    (newConnection heap clientFd clientType backendFd backendType).Live := by
  intro s
  cases s <;> rfl

/-- **The idle timer, exactly.** From creation on, every expiry that finds the
connection alive obeys the law if and only if the run does not begin with one:
with an event of the client or the backend before it, the status is never 0
again. -/
theorem idleLaw_iff (heap : Side → ℕ → Mem Byte) (clientFd : ℤ) (clientType : ConnType)
    (backendFd : ℤ) (backendType : ConnType) (es : List SockEvent) :
    (newConnection heap clientFd clientType backendFd backendType).IdleLaw false es ↔
      (es.head?.map SockEvent.sockType) ≠ some .proxyTimerSock := by
  set p := newConnection heap clientFd clientType backendFd backendType with hp
  have hlive : p.Live := newConnection_live _ _ _ _ _
  have hzero : p.timerStatusAndFd = 0 := rfl
  have hup : p.timerStatusAndFd ≠ timerIsUp := by rw [hzero]; decide
  cases es with
  | nil => exact iff_of_true trivial (by simp)
  | cons e es =>
      rcases side_or_timer e with ⟨side, he⟩ | he
      · have hne : e.sockType ≠ .proxyTimerSock := by
          rw [he]
          exact side.sockType_ne_timer
        refine iff_of_true ?_ (by simpa using hne)
        intro p' hstep
        refine ⟨fun htimer => absurd htimer hne, idleLaw_of_tracks (Or.inl ?_) es⟩
        rw [he] at hstep
        obtain ⟨q, hquiet, -, rfl⟩ := proxyEventsCallback_handled hup hlive hstep
        exact ⟨(hquiet.live hlive).timerStatus _, by simp [hne]⟩
      · -- the expiry finds the status 0 and changes nothing
        refine iff_of_false ?_ (by rw [he]; simp)
        intro hlaw
        rw [he] at hlaw
        have hstep := proxyEventsCallback_timer hup e.events e.env
        rw [handleTimerEvent_zero hzero] at hstep
        have hobeys := (hlaw p hstep).1 rfl hlive
        exact absurd (hzero.symm.trans hobeys.1) (by decide)

/-- Nothing happens on the sockets of a new connection before its timer expires. -/
def firstExpiry : SockEvent where
  sockType := .proxyTimerSock
  events := epollIn
  env :=
    { read := ⟨.wouldBlock, fun _ => ⟨0, true, ⟨.none, .empty, true⟩, ⟨[], .none, .empty⟩⟩⟩
      relay := ⟨true, ⟨.none, .empty, true⟩, [], .wouldBlock⟩
      write := ⟨true, ⟨.none, .empty, true⟩, [], .wouldBlock⟩ }

/-- The timer is then neither set again nor released, and the connection stays. -/
theorem first_expiry_is_ignored :
    ¬ ∀ (heap : Side → ℕ → Mem Byte) (clientFd : ℤ) (clientType : ConnType) (backendFd : ℤ)
        (backendType : ConnType) (es : List SockEvent),
      (newConnection heap clientFd clientType backendFd backendType).IdleLaw false es := by
  intro h
  have hlaw := h (fun _ _ _ => 0) 4 .sslConn 5 .sslConn [firstExpiry]
  have hobeys := (hlaw _ rfl).1 rfl (newConnection_live _ _ _ _ _)
  exact absurd hobeys.1 (by decide)

end ProxyConnection
end Zroxy
