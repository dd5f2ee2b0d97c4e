import Zroxy.Events.ProxyEffects

/-!
# Relaying received bytes from the backend to the client

Both sides are plain. What `recv` delivers at the backend waits in its buffer
until the client's `on_write` has sent it. As on a connection with two SSL sides
the READ branch of the backend consumes what was sent and the WRITE branch of
the client does not; here the bytes it has sent are zeros afterwards, and stay
pending.

There is a second way to lose bytes. `recv` may fill the storage behind the size
the buffer records, and then the growth before the next `recv` clears it.
`plain_relay_run_iff` names both.
-/

namespace Zroxy

open OffsetMemory Runs

namespace BufferManager

variable {b : BufferManager}

/-- What a growth would clear of the pending bytes is zero already. -/
def GrowthHarmless (b : BufferManager) : Prop :=
  b.shouldResizeBuffer = true → ∀ k, b.maxSizeOfBuffer ≤ k → k < b.maxSizeOfBuffer * 2 - 1 →
    k < b.currentBufferPtr → b.buffer k = 0

theorem growthHarmless_of_le (h : b.currentBufferPtr ≤ b.maxSizeOfBuffer) :
    b.GrowthHarmless := by
  intro _ k hk _ hptr
  omega

/-- The growth before a `recv` keeps the pending bytes exactly when it is
harmless. -/
theorem pending_growIfFull_iff :
    b.growIfFull.pending = b.pending ↔ b.GrowthHarmless := by
  unfold growIfFull
  by_cases hfull : b.shouldResizeBuffer = true
  · rw [if_pos hfull]
    show window (fill b.buffer b.maxSizeOfBuffer (b.maxSizeOfBuffer - 1) 0) 0
      b.currentBufferPtr.toNat = window b.buffer 0 b.currentBufferPtr.toNat ↔ _
    rw [window_eq_iff]
    constructor
    · intro h _ k hk hend hptr
      have hcell := h k (by omega) (by omega)
      rw [fill_inside (by omega)] at hcell
      exact hcell.symm
    · intro h k hk hptr
      by_cases hin : b.maxSizeOfBuffer ≤ k ∧ k < b.maxSizeOfBuffer + (b.maxSizeOfBuffer - 1)
      · rw [fill_inside hin, h hfull k hin.1 (by omega) (by omega)]
      · exact fill_outside (by omega)
  · rw [if_neg hfull]
    exact iff_of_true rfl fun hcon => absurd hcon hfull

theorem le_growIfFull_max (h : 1 ≤ b.maxSizeOfBuffer) :
    b.maxSizeOfBuffer ≤ b.growIfFull.maxSizeOfBuffer := by
  unfold growIfFull
  split
  · rw [doubleBufferSize_max, probed_max]
    omega
  · exact le_refl _

end BufferManager

/-- What the client has sent and what is pending at the backend make up what was
received at the backend. -/
def Conn.PlainRelayed (client backend : Conn) : Prop :=
  client.streams.sent ++ backend.offered = backend.streams.received

/-- A plain backend's buffer as the relay needs it: the counter is not negative,
and a size is recorded. -/
structure Conn.PlainBackend (b : Conn) : Prop where
  connType : b.connType = .plainConn
  ptr_nonneg : 0 ≤ b.plainManager.currentBufferPtr
  max_pos : 1 ≤ b.plainManager.maxSizeOfBuffer

theorem Conn.eq_plain {c : Conn} (h : c.connType = .plainConn) : ∃ p, c = .plain p := by
  cases c with
  | plain c => exact ⟨c, rfl⟩
  | ssl c => cases h

variable {c c' b b' : Conn} {env : EventEnv} {ready : Bool}

/-! ## The calls -/

/-- **A plain `on_read`** appends what `recv` delivers to a buffer that has grown,
if it was full. -/
theorem PlainConn.onReadEvent_spec (p : PlainConn) (env : ReadEnv)
    (hptr : 0 ≤ p.bufferManager.currentBufferPtr) :
    let p' := (p.onReadEvent env).1
    p'.bufferManager.pending = p.bufferManager.growIfFull.pending ++ env.recv.delivered ∧
      0 ≤ p'.bufferManager.currentBufferPtr ∧
      p'.bufferManager.maxSizeOfBuffer = p.bufferManager.growIfFull.maxSizeOfBuffer ∧
      p'.streams.received = p.streams.received ++ env.recv.delivered ∧
      p'.streams.sent = p.streams.sent := by
  have hgptr := BufferManager.growIfFull_ptr p.bufferManager
  unfold onReadEvent RecvResult.delivered
  cases env.recv with
  | received k =>
      refine ⟨BufferManager.pending_appendBytes (hgptr ▸ hptr) k.bytes, ?_, rfl, rfl, rfl⟩
      show 0 ≤ p.bufferManager.growIfFull.currentBufferPtr + (k.length : ℤ)
      omega
  | _ => exact ⟨(List.append_nil _).symm, hgptr ▸ hptr, rfl, (List.append_nil _).symm, rfl⟩

/-- `on_read` of a plain backend: what a harmful growth clears is lost. -/
theorem plainRead_relayed_iff (hb : b.PlainBackend) (hrel : c.PlainRelayed b) (env : ReadEnv) :
    (c.PlainRelayed (b.onRead .backend env).1 ↔ b.plainManager.GrowthHarmless) ∧
      (b.onRead .backend env).1.PlainBackend := by
  obtain ⟨p, rfl⟩ := Conn.eq_plain hb.connType
  obtain ⟨-, hptr, hmax⟩ := hb
  obtain ⟨hpending, hptr', hmax', hreceived, -⟩ := p.onReadEvent_spec env hptr
  constructor
  · rw [← BufferManager.pending_growIfFull_iff]
    unfold Conn.PlainRelayed at hrel ⊢
    show c.streams.sent ++ (p.onReadEvent env).1.bufferManager.pending =
      (p.onReadEvent env).1.streams.received ↔ _
    change c.streams.sent ++ p.bufferManager.pending = p.streams.received at hrel
    rw [hpending, hreceived, ← hrel, ← List.append_assoc, List.append_left_inj,
      List.append_right_inj]
    exact Iff.rfl
  · exact ⟨rfl, hptr', hmax'.ge.trans' (hmax.trans (BufferManager.le_growIfFull_max hmax))⟩

/-- What a plain client is given it sends as far as `send` takes it, and clears
where it lies. -/
theorem plainWrite_sent (hc : c.connType = .plainConn) (hptr : 0 ≤ b.plainManager.currentBufferPtr)
    {memory : Mem Byte} {n : ℤ} {env : WriteEnv}
    (hwrite : c.onWrite .client b.requestBufferReader env = .ok (c', memory, n)) :
    ∃ k, k = env.send.taken b.requestBufferReader ∧ 0 ≤ k ∧
      k ≤ b.plainManager.currentBufferPtr ∧
      c'.streams.sent = c.streams.sent ++ b.offered.take k.toNat ∧
      c'.connType = .plainConn ∧ (n = k ∨ (n < 0 ∧ k = 0)) ∧
      memory = fill b.requestBufferReader.buffer 0 k 0 := by
  obtain ⟨p, rfl⟩ := Conn.eq_plain hc
  have hlen : b.requestBufferReader.sendNbytes = b.plainManager.currentBufferPtr := by
    cases b <;> rfl
  have hclear : b.requestBufferReader.clearNbytes = b.plainManager.currentBufferPtr := by
    cases b <;> rfl
  obtain ⟨h0, hle⟩ := @SendResult.taken_bounds env.send b.requestBufferReader (hlen ▸ hptr)
  cases hwrite
  refine ⟨_, rfl, h0, hlen ▸ hle, ?_, rfl, ?_, ?_⟩
  · show p.streams.sent ++ window b.requestBufferReader.buffer 0
      (env.send.taken b.requestBufferReader).toNat = _
    rw [← b.requestBufferReader_bytes, WriteIoReq.bytes, window_take _ _ (by omega)]
    rfl
  · have hcode := writeSocketNonBlockAndClearBuf_snd
      { b.requestBufferReader with reqFd := p.sockFd } env.send
    change _ = min (env.send.taken b.requestBufferReader) b.requestBufferReader.clearNbytes ∨
      (_ ∧ env.send.taken b.requestBufferReader = 0) at hcode
    rwa [min_eq_left (by omega)] at hcode
  · exact writeSocketNonBlockAndClearBuf_buffer env.send (hclear.trans hlen.symm)

/-- The client takes some of what the backend has pending, and the backend
consumes as much. -/
theorem plainRelayed_consume_iff {memory : Mem Byte} {n : ℤ} {env : WriteEnv}
    (hc : c.connType = .plainConn) (hb : b.PlainBackend)
    (hwrite : c.onWrite .client b.requestBufferReader env = .ok (c', memory, n))
    (hconsume : (b.setSource memory).readNbytes .backend n = .ok b') :
    (c'.PlainRelayed b' ↔ c.PlainRelayed b) ∧ c'.connType = .plainConn ∧ b'.PlainBackend := by
  obtain ⟨k, -, h0, hle, hsent, hctype, hcode, rfl⟩ := plainWrite_sent hc hb.ptr_nonneg hwrite
  obtain ⟨p, rfl⟩ := Conn.eq_plain hb.connType
  change k ≤ p.bufferManager.currentBufferPtr at hle
  obtain ⟨-, -, -, hbtype, hstreams, hmanager⟩ := Conn.readNbytes_frame hconsume
  have hmax : 1 ≤ b'.plainManager.maxSizeOfBuffer := by
    rw [hmanager]
    split <;> exact hb.max_pos
  suffices hkeep : c'.streams.sent ++ b'.offered = c.streams.sent ++ p.bufferManager.pending ∧
      0 ≤ b'.plainManager.currentBufferPtr by
    refine ⟨?_, hctype, hbtype, hkeep.2, hmax⟩
    unfold Conn.PlainRelayed
    rw [hkeep.1, hstreams]
    exact Iff.rfl
  rw [hsent]
  change (c.streams.sent ++ p.bufferManager.pending.take k.toNat) ++ b'.offered = _ ∧ _
  -- a positive result is what was sent; any other one sent nothing
  by_cases hsome : n ≤ 0
  · obtain rfl : k = 0 := by omega
    have hsame : b'.plainManager = p.bufferManager := by
      rw [hmanager, if_pos hsome]
      show { p.bufferManager with buffer := fill p.bufferManager.buffer 0 0 0 } = _
      rw [fill_zero]
    rw [Conn.offered_eq, hsame, Int.toNat_zero, List.take_zero, List.append_nil]
    exact ⟨rfl, hb.ptr_nonneg⟩
  · obtain rfl : n = k := by omega
    have hconsumed : b'.plainManager = BufferManager.consume
        { p.bufferManager with buffer := fill p.bufferManager.buffer 0 n 0 } n := by
      rw [hmanager, if_neg hsome]
      rfl
    constructor
    · rw [Conn.offered_eq, hconsumed, BufferManager.pending_consume_cleared h0 hle,
        List.append_assoc, List.take_append_drop]
    · rw [hconsumed, BufferManager.consume_ptr]
      show 0 ≤ p.bufferManager.currentBufferPtr - n
      omega

/-! ## The branches -/

/-- The READ branch of a plain client relays nothing: the member that would
consume is NULL. -/
theorem ReadBranch.plainClient_frame (h : ReadBranch .client env ready c b c' b')
    (hc : c.connType = .plainConn) :
    b' = b ∧ c'.streams.sent = c.streams.sent ∧ c'.events = c.events ∧
      c'.connType = .plainConn := by
  obtain ⟨-, -, hevents, htype, -⟩ := c.onRead_frame .client env.read
  obtain ⟨p, rfl⟩ := Conn.eq_plain hc
  have hsent : ((Conn.plain p).onRead .client env.read).1.streams.sent = p.streams.sent := by
    simp only [Conn.onRead, PlainConn.onReadEvent]
    cases env.read.recv <;> rfl
  cases h with
  | notReady => exact ⟨rfl, rfl, rfl, rfl⟩
  | nothing => exact ⟨rfl, hsent, hevents, htype⟩
  | kept => exact ⟨rfl, hsent, hevents, htype⟩
  | relayed _ _ _ _ _ memory n hwrite hconsume =>
      obtain ⟨r, hr⟩ := Conn.eq_plain htype
      rw [hr] at hconsume
      cases hconsume

/-- The WRITE branch of the client sends what the backend has pending, and
leaves zeros of it. -/
theorem WriteBranch.plainClient_iff (h : WriteBranch .client env ready c b c' b')
    (hc : c.connType = .plainConn) (hb : b.PlainBackend) (hrel : c.PlainRelayed b) :
    (c'.PlainRelayed b' ↔ ready = false ∨ env.write.send.taken b.requestBufferReader = 0) ∧
      c'.connType = .plainConn ∧ b'.PlainBackend := by
  cases h with
  | notReady hready => exact ⟨iff_of_true hrel (Or.inl hready), hc, hb⟩
  | written hready _ memory n hwrite =>
      obtain ⟨k, rfl, h0, hle, hsent, hctype, -, rfl⟩ := plainWrite_sent hc hb.ptr_nonneg hwrite
      obtain ⟨p, rfl⟩ := Conn.eq_plain hb.connType
      refine ⟨?_, hctype, rfl, hb.ptr_nonneg, hb.max_pos⟩
      simp only [hready, Bool.true_eq_false, false_or]
      unfold Conn.PlainRelayed at hrel ⊢
      constructor
      · intro hrel'
        have hlen := congrArg List.length (hrel'.trans hrel.symm)
        rw [hsent] at hlen
        simp only [List.length_append, List.length_take, Conn.offered_eq,
          BufferManager.pending, window_length] at hlen
        change _ + min _ p.bufferManager.currentBufferPtr.toNat +
          p.bufferManager.currentBufferPtr.toNat =
            _ + p.bufferManager.currentBufferPtr.toNat at hlen
        change _ ≤ p.bufferManager.currentBufferPtr at hle
        omega
      · intro hnone
        rw [hsent, hnone, fill_zero, Conn.setSource_self, Int.toNat_zero, List.take_zero,
          List.append_nil]
        exact hrel

theorem ReadBranch.plainBackend_iff (h : ReadBranch .backend env ready b c b' c')
    (hc : c.connType = .plainConn) (hb : b.PlainBackend) (hrel : c.PlainRelayed b) :
    (c'.PlainRelayed b' ↔ ready = false ∨ b.plainManager.GrowthHarmless) ∧
      c'.connType = .plainConn ∧ b'.PlainBackend := by
  obtain ⟨hiff, hb'⟩ := plainRead_relayed_iff hb hrel env.read
  cases h with
  | notReady hready => exact ⟨iff_of_true hrel (Or.inl hready), hc, hb⟩
  | nothing hready =>
      rw [hready, hiff]
      exact ⟨by simp, hc, hb'⟩
  | kept hready =>
      rw [hready, hiff]
      exact ⟨by simp, hc, hb'⟩
  | relayed hready _ _ _ _ memory n hwrite hconsume =>
      obtain ⟨hkeep, hctype, hb''⟩ := plainRelayed_consume_iff hc hb' hwrite hconsume
      rw [hready, hkeep, hiff]
      exact ⟨by simp, hctype, hb''⟩

theorem WriteBranch.plainBackend_frame (h : WriteBranch .backend env ready b c b' c')
    (hc : c.connType = .plainConn) (hb : b.PlainBackend) :
    (c'.PlainRelayed b' ↔ c.PlainRelayed b) ∧ c'.connType = .plainConn ∧ b'.PlainBackend := by
  obtain ⟨p, rfl⟩ := Conn.eq_plain hc
  obtain ⟨q, rfl⟩ := Conn.eq_plain hb.connType
  cases h with
  | notReady => exact ⟨Iff.rfl, rfl, hb⟩
  | written _ _ memory n hwrite =>
      cases hwrite
      exact ⟨Iff.rfl, rfl, rfl, hb.ptr_nonneg, hb.max_pos⟩

/-! ## Whole events on the pair of connections -/

theorem Handled.plainClient_iff {events : UInt32} (h : Handled .client events env c b c' b')
    (hc : c.connType = .plainConn) (hb : b.PlainBackend) (hrel : c.PlainRelayed b) :
    (c'.PlainRelayed b' ↔
      maskReady (storeMask c.events events) .close = true ∨
        maskReady (storeMask c.events events) .write = false ∨
        env.write.send.taken b.requestBufferReader = 0) ∧
      c'.connType = .plainConn ∧ b'.PlainBackend := by
  cases h with
  | closed hclose =>
      refine ⟨iff_of_true ?_ (Or.inl hclose), by simpa using hc, hb⟩
      simpa [Conn.PlainRelayed] using hrel
  | served hclose c₁ b₁ _ _ hread hwrite =>
      obtain ⟨rfl, hsent, hevents, hctype⟩ := hread.plainClient_frame (by simpa using hc)
      rw [Conn.withMask_streams] at hsent
      rw [Conn.withMask_events] at hevents
      have hrel₁ : (c₁.withMask events).PlainRelayed b₁ := by
        unfold Conn.PlainRelayed at hrel ⊢
        rw [Conn.withMask_streams, hsent, hrel]
      obtain ⟨hiff, hrest⟩ := hwrite.plainClient_iff (by simpa using hctype) hb hrel₁
      rw [hevents, storeMask_self] at hiff
      exact ⟨by rw [hiff, hclose]; simp, hrest⟩

theorem Handled.plainBackend_iff {events : UInt32} (h : Handled .backend events env b c b' c')
    (hc : c.connType = .plainConn) (hb : b.PlainBackend) (hrel : c.PlainRelayed b) :
    (c'.PlainRelayed b' ↔
      maskReady (storeMask b.events events) .close = true ∨
        maskReady (storeMask b.events events) .read = false ∨
        b.plainManager.GrowthHarmless) ∧
      c'.connType = .plainConn ∧ b'.PlainBackend := by
  obtain ⟨p, rfl⟩ := Conn.eq_plain hb.connType
  cases h with
  | closed hclose =>
      exact ⟨iff_of_true hrel (Or.inl hclose), hc, rfl, hb.ptr_nonneg, hb.max_pos⟩
  | served hclose b₁ c₁ _ _ hread hwrite =>
      have hb₀ : ((Conn.plain p).withMask events).PlainBackend :=
        ⟨rfl, hb.ptr_nonneg, hb.max_pos⟩
      obtain ⟨hiff, hctype, hb₁⟩ := hread.plainBackend_iff hc hb₀ hrel
      have hmasked : (b₁.withMask events).PlainBackend := by
        obtain ⟨q, rfl⟩ := Conn.eq_plain hb₁.connType
        exact ⟨rfl, hb₁.ptr_nonneg, hb₁.max_pos⟩
      obtain ⟨hsame, hctype', hb'⟩ := hwrite.plainBackend_frame hctype hmasked
      have hunmasked : c₁.PlainRelayed (b₁.withMask events) ↔ c₁.PlainRelayed b₁ := by
        unfold Conn.PlainRelayed
        rw [Conn.offered_eq, Conn.withMask_plainManager, Conn.withMask_streams,
          Conn.offered_eq]
      refine ⟨?_, hctype', hb'⟩
      rw [hsame, hunmasked, hiff, hclose, Conn.withMask_plainManager]
      simp

/-! ## Events of the proxy connection -/

namespace ProxyConnection

/-- Every byte received at the backend is sent by the client or pending, once
and in order. -/
def PlainRelayedOnce (p : ProxyConnection) : Prop :=
  p.client.params.PlainRelayed p.backend.params

/-- The event sends nothing that stays pending, and clears nothing that is. The
mask is the one the event leaves stored. -/
def PlainRelaysOnce (p : ProxyConnection) (e : PeerEvent) : Prop :=
  let mask := storeMask (p.base e.side).params.events e.events
  maskReady mask .close = true ∨
    match e.side with
    | .client =>
        maskReady mask .write = false ∨
          e.env.write.send.taken p.backend.params.requestBufferReader = 0
    | .backend => maskReady mask .read = false ∨ p.backend.params.plainManager.GrowthHarmless

structure BothPlain (p : ProxyConnection) : Prop where
  live : p.Live
  running : p.timerStatusAndFd ≠ timerIsUp
  client : p.client.params.connType = .plainConn
  backend : p.backend.params.PlainBackend

/-- **One event** relays every byte once exactly when it sends none that stays
pending and clears none that is. -/
theorem plainRelayedOnce_peerCallback {p p' : ProxyConnection} {e : PeerEvent} (h : p.BothPlain)
    (hrel : p.PlainRelayedOnce) (hstep : p.peerCallback e = .ok p') :
    (p'.PlainRelayedOnce ↔ p.PlainRelaysOnce e) ∧ p'.BothPlain := by
  obtain ⟨q, hquiet, hcases, rfl⟩ := proxyEventsCallback_handled h.running h.live hstep
  have hlive := (hquiet.live h.live).timerStatus relaxTimer
  obtain ⟨-, -, hctype, hb⟩ := h
  obtain ⟨side, events, env⟩ := e
  suffices hboth : (q.client.params.PlainRelayed q.backend.params ↔
      p.PlainRelaysOnce ⟨side, events, env⟩) ∧
        q.client.params.connType = .plainConn ∧ q.backend.params.PlainBackend from
    ⟨hboth.1, hlive, show relaxTimer ≠ timerIsUp by decide, hboth.2.1, hboth.2.2⟩
  unfold PlainRelayedOnce at hrel
  unfold PlainRelaysOnce
  cases side with
  | client =>
      simp only [base, Side.peer] at hcases ⊢
      exact hcases.plainClient_iff hctype hb hrel
  | backend =>
      simp only [base, Side.peer] at hcases ⊢
      exact hcases.plainBackend_iff hctype hb hrel

theorem newConnection_bothPlain (heap : Side → ℕ → Mem Byte) (clientFd backendFd : ℤ) :
    (newConnection heap clientFd .plainConn backendFd .plainConn).BothPlain := by
  refine ⟨fun s => by cases s <;> rfl, show (0 : ℤ) ≠ timerIsUp by decide, rfl, rfl, ?_, ?_⟩
  · exact le_refl 0
  · show (1 : ℤ) ≤ readBufSize + 1
    decide

/-- **The plain relay from backend to client, exactly.** From a new connection
with two plain sides, every byte received at the backend is sent by the client
or pending, once and in order, in all states of a run of client and backend
events if and only if no event of the run sends bytes that stay pending or
clears pending bytes. -/
theorem plain_relay_run_iff (heap : Side → ℕ → Mem Byte) (clientFd backendFd : ℤ)
    (es : List PeerEvent) :
    Always peerCallback PlainRelayedOnce
        (newConnection heap clientFd .plainConn backendFd .plainConn) es ↔
      EachStep peerCallback PlainRelaysOnce
        (newConnection heap clientFd .plainConn backendFd .plainConn) es := by
  refine always_iff_eachStep (I := BothPlain) ?_ ?_ (newConnection_bothPlain _ _ _) ?_ es
  · intro p e p' h hrel hstep
    exact (plainRelayedOnce_peerCallback h hrel hstep).1
  · intro p e p' h hrel hstep _
    exact (plainRelayedOnce_peerCallback h hrel hstep).2
  · exact List.append_nil _

def noOpenssl : WriteEnv := ⟨false, ⟨.none, .empty, false⟩, [], .room 1⟩

/-- The backend receives one byte; the client has not been writable yet. -/
def backendReceives : PeerEvent where
  side := .backend
  events := epollIn
  env := ⟨⟨.received (.single 65), fun _ => ⟨0, false, ⟨.none, .empty, false⟩,
    ⟨[], .none, .empty⟩⟩⟩, noOpenssl, noOpenssl⟩

def clientSends : PeerEvent where
  side := .client
  events := epollOut
  env := ⟨⟨.wouldBlock, fun _ => ⟨0, false, ⟨.none, .empty, false⟩, ⟨[], .none, .empty⟩⟩⟩,
    noOpenssl, noOpenssl⟩

/-- The byte has been sent, and a zero is pending in its place. -/
theorem clientSends_leaves_zero :
    ¬ ∀ (heap : Side → ℕ → Mem Byte) (clientFd backendFd : ℤ) (es : List PeerEvent),
      Always peerCallback PlainRelayedOnce
        (newConnection heap clientFd .plainConn backendFd .plainConn) es := by
  intro h
  have hrun := h (fun _ _ _ => 0) 4 5 [backendReceives, clientSends]
  have hbroken := ((hrun.2 _ rfl).2 _ rfl).head
  exact absurd (congrArg List.length hbroken) (by decide)

end ProxyConnection
end Zroxy
