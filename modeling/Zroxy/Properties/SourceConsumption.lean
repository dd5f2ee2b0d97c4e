import Zroxy.Events.DescriptorIo

/-!
# No side consumes more than it has pending

In the READ branch, what the peer's `on_write` returns is what `read_nbytes`
takes off the side's buffer. A plain peer returns what `send` has taken, cut to
the size of the request; an SSL peer returns the size of the request, with what
the Host rewriting adds to it, or a code that is not positive. The rewriting
adds nothing (`rewriteHost_sendNbytes`), so neither returns more than the side
has pending, and the counter stays at 0 or above over any run, up to the
teardown and behind it.
-/

namespace Zroxy

open OffsetMemory Runs

namespace Conn

variable {c c' d d' : Conn} {side me : Side} {memory : Mem Byte} {n : ℤ}

/-- **What `on_write` returns** is at most what it is offered. -/
theorem onWrite_le {env : WriteEnv} (hptr : 0 ≤ c.plainManager.currentBufferPtr)
    (hwrite : d.onWrite side c.requestBufferReader env = .ok (d', memory, n)) :
    n ≤ c.plainManager.currentBufferPtr := by
  have hsend : c.requestBufferReader.sendNbytes = c.plainManager.currentBufferPtr := by
    cases c <;> rfl
  have hclear : c.requestBufferReader.clearNbytes = c.plainManager.currentBufferPtr := by
    cases c <;> rfl
  cases d with
  | plain d =>
      cases hwrite
      rw [← hclear] at hptr ⊢
      rcases writeSocketNonBlockAndClearBuf_snd
          { c.requestBufferReader with reqFd := d.sockFd } env.send with hcut | ⟨hneg, -⟩
      · exact hcut.trans_le (min_le_right _ _)
      · exact hneg.le.trans hptr
  | ssl d =>
      obtain ⟨-, -, -, -, -, -, hcode⟩ := onWrite_ssl_queued hwrite
      split at hcode
      · rw [hcode, hsend]
      · exact hcode.trans hptr

theorem readNbytes_ptr_nonneg (hptr : 0 ≤ c.plainManager.currentBufferPtr)
    (hn : n ≤ c.plainManager.currentBufferPtr) (h : c.readNbytes side n = .ok c') :
    0 ≤ c'.plainManager.currentBufferPtr := by
  obtain ⟨-, -, -, -, -, hmanager⟩ := readNbytes_frame h
  rw [hmanager]
  split
  · exact hptr
  · exact Int.sub_nonneg.mpr hn

@[simp] theorem setSource_ptr (c : Conn) (memory : Mem Byte) :
    (c.setSource memory).plainManager.currentBufferPtr = c.plainManager.currentBufferPtr := by
  cases c <;> rfl

end Conn

/-! ## The branches -/

/-- Both counters of source bytes are at 0 or above. -/
def PtrsNonneg (c d : Conn) : Prop :=
  0 ≤ c.plainManager.currentBufferPtr ∧ 0 ≤ d.plainManager.currentBufferPtr

variable {me : Side} {env : EventEnv} {events : UInt32} {ready : Bool} {c c' d d' : Conn}

theorem onRead_ptr_nonneg (h : 0 ≤ c.plainManager.currentBufferPtr) (side : Side)
    (read : ReadEnv) : 0 ≤ (c.onRead side read).1.plainManager.currentBufferPtr := by
  rw [Conn.onRead_ptr]
  omega

theorem ReadBranch.ptrsNonneg (h : ReadBranch me env ready c d c' d') (hptr : PtrsNonneg c d) :
    PtrsNonneg c' d' := by
  obtain ⟨hc, hd⟩ := hptr
  have hread := onRead_ptr_nonneg hc me env.read
  cases h with
  | notReady => exact ⟨hc, hd⟩
  | nothing => exact ⟨hread, hd⟩
  | kept => exact ⟨hread, hd⟩
  | relayed _ _ _ _ _ memory n hwrite hconsume =>
      obtain ⟨-, -, -, -, hpeer, -⟩ := Conn.onWrite_frame hwrite
      have hle := Conn.onWrite_le hread hwrite
      rw [← Conn.setSource_ptr _ memory] at hread hle
      refine ⟨Conn.readNbytes_ptr_nonneg hread hle hconsume, ?_⟩
      rw [hpeer]
      exact hd

theorem WriteBranch.ptrsNonneg (h : WriteBranch me env ready c d c' d')
    (hptr : PtrsNonneg c d) : PtrsNonneg c' d' := by
  obtain ⟨hc, hd⟩ := hptr
  cases h with
  | notReady => exact ⟨hc, hd⟩
  | written _ _ memory n hwrite =>
      obtain ⟨-, -, -, -, hme, -⟩ := Conn.onWrite_frame hwrite
      refine ⟨?_, ?_⟩
      · rw [hme]
        exact hc
      · rw [Conn.setSource_ptr]
        exact hd

/-- **One event of a side.** -/
theorem Handled.ptrsNonneg (h : Handled me events env c d c' d') (hptr : PtrsNonneg c d) :
    PtrsNonneg c' d' := by
  have hmasked : ∀ {x y : Conn}, PtrsNonneg x y → PtrsNonneg (x.withMask events) y := by
    intro x y hxy
    unfold PtrsNonneg
    rw [Conn.withMask_plainManager]
    exact hxy
  cases h with
  | closed =>
      unfold PtrsNonneg
      rw [Conn.onClose_plainManager]
      exact hmasked hptr
  | served _ _ _ _ _ hread hwrite =>
      exact hwrite.ptrsNonneg (hmasked (hread.ptrsNonneg (hmasked hptr)))

/-! ## Runs of a proxy connection -/

namespace ProxyConnection

variable {p p' : ProxyConnection}

/-- Whatever the peer's `on_write` returns on what the side has pending after an
`on_read`, it is at most that: what the READ branch of the side passes to
`read_nbytes`. -/
def ConsumesWithin (p : ProxyConnection) (me : Side) : Prop :=
  ∀ (events : UInt32) (read : ReadEnv) (relay : WriteEnv) (d : Conn) (memory : Mem Byte) (n : ℤ),
    let c := (((p.base me).params.withMask events).onRead me read).1
    (p.base me.peer).params.onWrite me.peer c.requestBufferReader relay = .ok (d, memory, n) →
      n ≤ c.plainManager.currentBufferPtr

/-- No side has fewer than no bytes pending, and none consumes more than it has. -/
structure SourcesKept (p : ProxyConnection) : Prop where
  ptr_nonneg : ∀ s, 0 ≤ (p.base s).params.plainManager.currentBufferPtr
  consumes : ∀ s, p.ConsumesWithin s

theorem sourcesKept_of_ptr_nonneg
    (h : ∀ s, 0 ≤ (p.base s).params.plainManager.currentBufferPtr) : p.SourcesKept where
  ptr_nonneg := h
  consumes me events read relay d memory n := by
    intro c hwrite
    have hmasked : 0 ≤ ((p.base me).params.withMask events).plainManager.currentBufferPtr := by
      rw [Conn.withMask_plainManager]
      exact h me
    exact Conn.onWrite_le (onRead_ptr_nonneg hmasked me read) hwrite

/-- The counters are at 0 or above in a connection whose bases are live until
its timer is up. -/
structure Consistent (p : ProxyConnection) : Prop where
  phase : p.timerStatusAndFd = timerIsUp ∨ p.Live
  ptr_nonneg : ∀ s, 0 ≤ (p.base s).params.plainManager.currentBufferPtr

/-- **One event** of any handler. -/
theorem Consistent.step {e : SockEvent} (h : p.Consistent)
    (hstep : p.proxyEventsCallback e = .ok p') : p'.Consistent := by
  obtain ⟨hphase, hptr⟩ := h
  by_cases hup : p.timerStatusAndFd = timerIsUp
  · rw [proxyEventsCallback_up hup] at hstep
    cases hstep
    exact ⟨hphase, hptr⟩
  have hlive : p.Live := hphase.resolve_left hup
  rcases side_or_timer e with ⟨side, he⟩ | he
  · rw [he] at hstep
    obtain ⟨q, hquiet, hhandled, rfl⟩ := proxyEventsCallback_handled hup hlive hstep
    obtain ⟨hme, hpeer⟩ := hhandled.ptrsNonneg ⟨hptr side, hptr side.peer⟩
    refine ⟨Or.inr ((hquiet.live hlive).timerStatus _), ?_⟩
    simp only [base_timerStatus]
    exact side.both hme hpeer
  · rw [he, proxyEventsCallback_timer hup] at hstep
    cases hstep
    rcases handleTimerEvent_cases hlive with hsame | hdown | hsame
    · rw [hsame]
      refine ⟨Or.inr hlive.rearmed, fun s => ?_⟩
      rw [rearmed_base]
      exact hptr s
    · rw [hdown]
      refine ⟨Or.inl rfl, fun s => ?_⟩
      rw [tornDown_params, Conn.forceClose_plainManager]
      exact hptr s
    · rw [hsame]
      exact ⟨Or.inr hlive, hptr⟩

/-- **No source is consumed past its end.** From a new proxy connection of any
two types, through any run of client, backend and timer events, what the peer of
a side returns from `on_write` is at most what the side has pending, and no
counter of pending bytes falls below 0. -/
theorem sources_kept_run (heap : Side → ℕ → Mem Byte) (clientFd : ℤ) (clientType : ConnType)
    (backendFd : ℤ) (backendType : ConnType) (es : List SockEvent) :
    Always proxyEventsCallback SourcesKept
      (newConnection heap clientFd clientType backendFd backendType) es := by
  have hnew : (newConnection heap clientFd clientType backendFd backendType).Consistent := by
    constructor
    · right
      intro s
      cases s <;> rfl
    · intro s
      cases s <;> cases clientType <;> cases backendType <;> exact le_refl _
  have hrun : Always proxyEventsCallback Consistent
      (newConnection heap clientFd clientType backendFd backendType) es :=
    always_of_invariant (fun _ _ _ hp hstep => hp.step hstep) hnew es
  exact hrun.mono fun p hp => sourcesKept_of_ptr_nonneg hp.ptr_nonneg

end ProxyConnection
end Zroxy
