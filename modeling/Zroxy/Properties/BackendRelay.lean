import Zroxy.Events.ProxyEffects

/-!
# Relaying plaintext from the backend to the client

Both sides are SSL. A byte that the backend's `SSL_read` delivers waits in the
backend's plain buffer until the client's `on_write` has put it into the client's
encryption queue, on one of two paths: the READ branch of the backend, which
consumes what `on_write` says it has taken, and the WRITE branch of the client,
which consumes nothing.

`Relayed` says that queue and buffer together hold every byte once and in order.
`relay_run_iff` names the steps that break it: a client-writable event while
bytes are pending, and a backend-readable one whose `on_write` queues the bytes
and then reports that it has taken none.
-/

namespace Zroxy

open OffsetMemory Runs

/-- What was queued at the client and what is pending at the backend make up
what was decrypted at the backend. -/
def Conn.Relayed (client backend : Conn) : Prop :=
  client.streams.queued ++ backend.offered = backend.streams.decrypted

variable {c c' b b' : Conn} {env : EventEnv} {ready : Bool}

/-! ## The branches on the pair of connections -/

theorem ReadBranch.client_frame (h : ReadBranch .client env ready c b c' b') :
    c'.streams.queued = c.streams.queued ∧ c'.events = c.events ∧
      c'.connType = c.connType ∧ b'.connType = b.connType ∧
      b'.plainManager = b.plainManager ∧ b'.streams.decrypted = b.streams.decrypted := by
  obtain ⟨-, -, hevents, htype, hqueued⟩ := c.onRead_frame .client env.read
  cases h with
  | notReady => exact ⟨rfl, rfl, rfl, rfl, rfl, rfl⟩
  | nothing => exact ⟨hqueued, hevents, htype, rfl, rfl, rfl⟩
  | kept => exact ⟨hqueued, hevents, htype, rfl, rfl, rfl⟩
  | relayed _ _ _ _ _ memory n hwrite hconsume =>
      obtain ⟨-, -, -, hbtype, hplain, hdecrypted⟩ := Conn.onWrite_frame hwrite
      obtain ⟨-, -, hevents', htype', hstreams', -⟩ := Conn.readNbytes_frame hconsume
      obtain ⟨-, -, hevents'', htype'', hstreams''⟩ :=
        (c.onRead .client env.read).1.setSource_frame memory
      refine ⟨?_, ?_, ?_, hbtype, hplain, hdecrypted⟩
      · rw [hstreams', hstreams'', hqueued]
      · rw [hevents', hevents'', hevents]
      · rw [htype', htype'', htype]

theorem WriteBranch.backend_frame (h : WriteBranch .backend env ready b c b' c') :
    c'.streams.queued = c.streams.queued ∧ c'.connType = c.connType ∧
      b'.connType = b.connType ∧ b'.plainManager = b.plainManager ∧
      b'.streams.decrypted = b.streams.decrypted := by
  cases h with
  | notReady => exact ⟨rfl, rfl, rfl, rfl, rfl⟩
  | written _ _ memory n hwrite =>
      obtain ⟨-, -, -, hbtype, hplain, hdecrypted⟩ := Conn.onWrite_frame hwrite
      obtain ⟨-, -, -, htype, hstreams⟩ := c.setSource_frame memory
      exact ⟨by rw [hstreams], htype, hbtype, hplain, hdecrypted⟩

/-- An SSL client that writes what the backend has pending queues it, and leaves
it where it is. -/
theorem clientWrite_queued (hc : c.connType = .sslConn) {memory : Mem Byte} {n : ℤ}
    {env : WriteEnv}
    (hwrite : c.onWrite .client b.requestBufferReader env = .ok (c', memory, n)) :
    c'.streams.queued = c.streams.queued ++ b.offered ∧ b.setSource memory = b ∧
      (if c.Sends .client env b.offered.length ∧ env.send.takesAny = true
        then n = b.plainManager.currentBufferPtr else n ≤ 0) := by
  obtain ⟨s, rfl⟩ := Conn.eq_ssl hc
  obtain ⟨req, -, hmem, hreq, -, hqueued, hcode⟩ := Conn.onWrite_ssl_queued hwrite
  obtain rfl := hreq rfl
  rw [b.requestBufferReader_bytes] at hqueued hcode
  refine ⟨hqueued, by rw [hmem, Conn.setSource_self], ?_⟩
  have hlen : b.requestBufferReader.sendNbytes = b.plainManager.currentBufferPtr := by
    cases b <;> rfl
  rwa [hlen] at hcode

theorem WriteBranch.client_relayed_iff (h : WriteBranch .client env ready c b c' b')
    (hc : c.connType = .sslConn) (hrel : c.Relayed b) :
    (c'.Relayed b' ↔ ready = false ∨ b.offered = []) ∧ c'.connType = .sslConn ∧ b' = b := by
  unfold Conn.Relayed at hrel ⊢
  cases h with
  | notReady hready => exact ⟨iff_of_true hrel (Or.inl hready), hc, rfl⟩
  | written hready _ memory n hwrite =>
      obtain ⟨hqueued, hsource, -⟩ := clientWrite_queued hc hwrite
      obtain ⟨-, -, -, htype, -⟩ := Conn.onWrite_frame hwrite
      refine ⟨?_, htype.trans hc, hsource⟩
      rw [hsource, hqueued, ← hrel, hready]
      simp

theorem backendRead_relayed (hb : b.connType = .sslConn) (hsized : b.plainManager.WellSized)
    (hrel : c.Relayed b) (env : ReadEnv) :
    c.Relayed (b.onRead .backend env).1 ∧
      (b.onRead .backend env).1.offered = b.offered ++ chunkBytes env.plain ∧
      (b.onRead .backend env).1.plainManager.WellSized ∧
      (b.onRead .backend env).1.connType = .sslConn := by
  obtain ⟨s, rfl⟩ := Conn.eq_ssl hb
  obtain ⟨-, -, -, htype, -⟩ := (Conn.ssl s).onRead_frame .backend env
  obtain ⟨hplain, hdecrypted⟩ := Conn.onRead_ssl_plain s .backend env
  obtain ⟨hsized', hpending⟩ :=
    @BufferManager.copyChunks_backend env.plain s.plainBufferManager hsized
  rw [SslConn.plainGrowth] at hplain
  have hoffered : ((Conn.ssl s).onRead .backend env).1.offered =
      (Conn.ssl s).offered ++ chunkBytes env.plain := by
    rw [Conn.offered_eq, hplain, hpending]
    rfl
  refine ⟨?_, hoffered, by rw [hplain]; exact hsized', htype⟩
  unfold Conn.Relayed at hrel ⊢
  rw [hoffered, hdecrypted, ← List.append_assoc, hrel]
  rfl

/-- Writing what is pending to the client, and consuming by the result: the
bytes are queued in any case, so none of them may stay. -/
theorem relayed_consume_iff {r : Conn} {memory : Mem Byte} {n : ℤ} {env : WriteEnv}
    (hc : c.connType = .sslConn) (hsized : r.plainManager.WellSized) (hrel : c.Relayed r)
    (hwrite : c.onWrite .client r.requestBufferReader env = .ok (c', memory, n))
    (hconsume : (r.setSource memory).readNbytes .backend n = .ok b') :
    (c'.Relayed b' ↔ r.offered = [] ∨
        (c.Sends .client env r.offered.length ∧ env.send.takesAny = true)) ∧
      c'.connType = .sslConn ∧ b'.connType = r.connType ∧ b'.plainManager.WellSized := by
  obtain ⟨hqueued, hsource, hcode⟩ := clientWrite_queued hc hwrite
  obtain ⟨-, -, -, hctype, -⟩ := Conn.onWrite_frame hwrite
  rw [hsource] at hconsume
  obtain ⟨-, -, -, hbtype, hstreams, hmanager⟩ := Conn.readNbytes_frame hconsume
  have hptr := hsized.ptr_nonneg
  -- everything offered is queued now, so what stays pending is there twice
  have hkey : c'.Relayed b' ↔ b'.offered = [] := by
    unfold Conn.Relayed at hrel ⊢
    rw [hqueued, hstreams, ← hrel]
    simp
  refine ⟨?_, hctype.trans hc, hbtype, ?_⟩
  · rw [hkey, Conn.offered_eq, hmanager]
    split at hcode
    · -- the result is the number of pending bytes
      subst hcode
      refine iff_of_true ?_ (Or.inr ‹_›)
      rw [BufferManager.pending_eq_nil_iff]
      split
      · assumption
      · rw [BufferManager.consume_ptr]
        omega
    · rw [if_pos hcode, ← Conn.offered_eq]
      exact ⟨Or.inl, fun hor => hor.resolve_right ‹_›⟩
  · rw [hmanager]
    split
    · exact hsized
    · refine hsized.consume (by omega) ?_
      split at hcode <;> omega

/-- The READ branch of the backend keeps everything relayed unless its caller
hears that nothing was taken. -/
theorem ReadBranch.backend_relayed_iff (h : ReadBranch .backend env ready b c b' c')
    (hc : c.connType = .sslConn) (hb : b.connType = .sslConn)
    (hsized : b.plainManager.WellSized) (hrel : c.Relayed b) :
    (c'.Relayed b' ↔
      ready = false ∨ readSocketNonBlock env.read.recv ≤ 0 ∨
        maskReady c.events .write = false ∨ b.offered ++ chunkBytes env.read.plain = [] ∨
        (c.Sends .client env.relay (b.offered ++ chunkBytes env.read.plain).length ∧
          env.relay.send.takesAny = true)) ∧
      c'.connType = .sslConn ∧ b'.connType = .sslConn ∧ b'.plainManager.WellSized := by
  obtain ⟨hrel', hoffered, hsized', hbtype⟩ := backendRead_relayed hb hsized hrel env.read
  have hread := b.onRead_snd .backend env.read
  cases h with
  | notReady hready => exact ⟨iff_of_true hrel (Or.inl hready), hc, hb, hsized⟩
  | nothing _ hnone =>
      rw [hread] at hnone
      exact ⟨iff_of_true hrel' (Or.inr (Or.inl hnone)), hc, hbtype, hsized'⟩
  | kept _ _ hmask =>
      exact ⟨iff_of_true hrel' (Or.inr (Or.inr (Or.inl hmask))), hc, hbtype, hsized'⟩
  | relayed hready hsome hmask _ _ memory n hwrite hconsume =>
      obtain ⟨hiff, hctype, hbtype', hsized''⟩ :=
        relayed_consume_iff hc hsized' hrel' hwrite hconsume
      rw [hread] at hsome
      rw [hoffered] at hiff
      refine ⟨?_, hctype, hbtype'.trans hbtype, hsized''⟩
      simp only [hiff, hready, hmask, Bool.true_eq_false, false_or, not_le.mpr hsome]

/-! ## Whole events on the pair of connections -/

theorem Handled.client_relayed_iff {events : UInt32} (h : Handled .client events env c b c' b')
    (hc : c.connType = .sslConn) (hrel : c.Relayed b) :
    (c'.Relayed b' ↔
      maskReady (storeMask c.events events) .close = true ∨
        maskReady (storeMask c.events events) .write = false ∨ b.offered = []) ∧
      c'.connType = .sslConn ∧ b'.connType = b.connType ∧
      b'.plainManager = b.plainManager := by
  cases h with
  | closed hclose =>
      refine ⟨iff_of_true ?_ (Or.inl hclose), by simpa using hc, rfl, rfl⟩
      simpa [Conn.Relayed] using hrel
  | served hclose c₁ b₁ _ _ hread hwrite =>
      obtain ⟨hqueued, hevents, hctype, hbtype, hplain, hdecrypted⟩ := hread.client_frame
      have hoffered : b₁.offered = b.offered := by
        rw [Conn.offered_eq, hplain, Conn.offered_eq]
      have hrel₁ : (c₁.withMask events).Relayed b₁ := by
        unfold Conn.Relayed at hrel ⊢
        rw [Conn.withMask_streams, hqueued, hoffered, hdecrypted, Conn.withMask_streams, hrel]
      have hc₁ : (c₁.withMask events).connType = .sslConn := by
        rw [Conn.withMask_connType, hctype, Conn.withMask_connType, hc]
      obtain ⟨hiff, hctype', rfl⟩ := hwrite.client_relayed_iff hc₁ hrel₁
      rw [hevents, Conn.withMask_events, storeMask_self, hoffered] at hiff
      exact ⟨by rw [hiff, hclose]; simp, hctype', hbtype, hplain⟩

theorem Handled.backend_relayed_iff {events : UInt32}
    (h : Handled .backend events env b c b' c') (hc : c.connType = .sslConn)
    (hb : b.connType = .sslConn) (hsized : b.plainManager.WellSized) (hrel : c.Relayed b) :
    (c'.Relayed b' ↔
      maskReady (storeMask b.events events) .close = true ∨
        maskReady (storeMask b.events events) .read = false ∨
        readSocketNonBlock env.read.recv ≤ 0 ∨ maskReady c.events .write = false ∨
        b.offered ++ chunkBytes env.read.plain = [] ∨
        (c.Sends .client env.relay (b.offered ++ chunkBytes env.read.plain).length ∧
          env.relay.send.takesAny = true)) ∧
      c'.connType = .sslConn ∧ b'.connType = .sslConn ∧ b'.plainManager.WellSized := by
  have hoffered : (b.withMask events).offered = b.offered := by
    rw [Conn.offered_eq, Conn.withMask_plainManager, Conn.offered_eq]
  cases h with
  | closed hclose =>
      refine ⟨iff_of_true ?_ (Or.inl hclose), hc, by simpa using hb, by simpa using hsized⟩
      unfold Conn.Relayed at hrel ⊢
      rw [Conn.offered_eq] at hrel ⊢
      simpa using hrel
  | served hclose b₁ c₁ _ _ hread hwrite =>
      have hrel₀ : c.Relayed (b.withMask events) := by
        unfold Conn.Relayed at hrel ⊢
        rw [hoffered, hrel, Conn.withMask_streams]
      obtain ⟨hiff, hctype, hbtype, hsized₁⟩ := hread.backend_relayed_iff hc
        (by simpa using hb) (by simpa using hsized) hrel₀
      obtain ⟨hqueued, hctype', hbtype', hplain, hdecrypted⟩ := hwrite.backend_frame
      -- the WRITE branch of the backend concerns the other direction
      have hsame : c'.Relayed b' ↔ c₁.Relayed b₁ := by
        unfold Conn.Relayed
        rw [hqueued, hdecrypted, Conn.withMask_streams, Conn.offered_eq, hplain,
          Conn.withMask_plainManager, Conn.offered_eq]
      refine ⟨?_, hctype'.trans hctype, ?_, ?_⟩
      · rw [hsame, hiff, hoffered, hclose]
        simp
      · rw [hbtype', Conn.withMask_connType, hbtype]
      · rw [hplain, Conn.withMask_plainManager]
        exact hsized₁

/-! ## Events of the proxy connection -/

namespace ProxyConnection

/-- Every byte decrypted at the backend is queued at the client or pending, once
and in order. -/
def RelayedOnce (p : ProxyConnection) : Prop := p.client.params.Relayed p.backend.params

/-- The event queues no byte that stays pending. The mask is the one the event
leaves stored. -/
def RelaysOnce (p : ProxyConnection) (e : PeerEvent) : Prop :=
  let mask := storeMask (p.base e.side).params.events e.events
  maskReady mask .close = true ∨
    match e.side with
    | .client => maskReady mask .write = false ∨ p.backend.params.offered = []
    | .backend =>
        let pending := p.backend.params.offered ++ chunkBytes e.env.read.plain
        maskReady mask .read = false ∨ readSocketNonBlock e.env.read.recv ≤ 0 ∨
          maskReady p.client.params.events .write = false ∨ pending = [] ∨
          (p.client.params.Sends .client e.env.relay pending.length ∧
            e.env.relay.send.takesAny = true)

/-- Two SSL sides, none of them freed, and a backend whose plain buffer has
consistent sizes. -/
structure BothSsl (p : ProxyConnection) : Prop where
  live : p.Live
  running : p.timerStatusAndFd ≠ timerIsUp
  client : p.client.params.connType = .sslConn
  backend : p.backend.params.connType = .sslConn
  sized : p.backend.params.plainManager.WellSized

/-- **One event** relays every byte once exactly when it queues none that stays
pending. -/
theorem relayedOnce_peerCallback {p p' : ProxyConnection} {e : PeerEvent} (h : p.BothSsl)
    (hrel : p.RelayedOnce) (hstep : p.peerCallback e = .ok p') :
    (p'.RelayedOnce ↔ p.RelaysOnce e) ∧ p'.BothSsl := by
  obtain ⟨q, hquiet, hcases, rfl⟩ := proxyEventsCallback_handled h.running h.live hstep
  have hlive := (hquiet.live h.live).timerStatus relaxTimer
  obtain ⟨-, -, hctype, hbtype, hsized⟩ := h
  obtain ⟨side, events, env⟩ := e
  suffices hboth : (q.client.params.Relayed q.backend.params ↔ p.RelaysOnce ⟨side, events, env⟩) ∧
      q.client.params.connType = .sslConn ∧ q.backend.params.connType = .sslConn ∧
        q.backend.params.plainManager.WellSized from
    ⟨hboth.1, hlive, show relaxTimer ≠ timerIsUp by decide, hboth.2.1, hboth.2.2.1,
      hboth.2.2.2⟩
  unfold RelayedOnce at hrel
  unfold RelaysOnce
  cases side with
  | client =>
      simp only [base, Side.peer] at hcases ⊢
      obtain ⟨hiff, hctype', hbtype', hplain⟩ := hcases.client_relayed_iff hctype hrel
      exact ⟨hiff, hctype', hbtype'.trans hbtype, by rw [hplain]; exact hsized⟩
  | backend =>
      simp only [base, Side.peer] at hcases ⊢
      exact hcases.backend_relayed_iff hctype hbtype hsized hrel

theorem newConnection_bothSsl (heap : Side → ℕ → Mem Byte) (clientFd backendFd : ℤ) :
    (newConnection heap clientFd .sslConn backendFd .sslConn).BothSsl := by
  refine ⟨fun s => by cases s <;> rfl, show (0 : ℤ) ≠ timerIsUp by decide, rfl, rfl, ?_⟩
  exact newBufferManager_wellSized (heap .backend 3)

/-- **The relay from backend to client, exactly.** From a new connection with
two SSL sides, every byte decrypted at the backend is queued at the client or
pending, once and in order, in all states of a run of client and backend events
if and only if no event of the run queues bytes that stay pending. -/
theorem relay_run_iff (heap : Side → ℕ → Mem Byte) (clientFd backendFd : ℤ)
    (es : List PeerEvent) :
    Always peerCallback RelayedOnce (newConnection heap clientFd .sslConn backendFd .sslConn) es ↔
      EachStep peerCallback RelaysOnce
        (newConnection heap clientFd .sslConn backendFd .sslConn) es := by
  refine always_iff_eachStep (I := BothSsl) ?_ ?_ (newConnection_bothSsl _ _ _) ?_ es
  · intro p e p' h hrel hstep
    exact (relayedOnce_peerCallback h hrel hstep).1
  · intro p e p' h hrel hstep _
    exact (relayedOnce_peerCallback h hrel hstep).2
  · exact List.append_nil _

/-- OpenSSL during an `on_write` whose handshake is not finished. -/
def unfinishedWrite : WriteEnv := ⟨false, ⟨.wantRead, .empty, false⟩, [], .wouldBlock⟩

/-- The backend delivers one byte of plaintext; the client has not been writable
yet. -/
def backendDelivers : PeerEvent where
  side := .backend
  events := epollIn
  env :=
    { read :=
        { recv := .received (.single 23)
          rounds := fun _ =>
            { bioWrite := 1
              initFinished := true
              handshake := ⟨.none, .empty, true⟩
              reads := ⟨[.single 65], .wantRead, .empty⟩ } }
      relay := unfinishedWrite
      write := unfinishedWrite }

def clientWritable : PeerEvent where
  side := .client
  events := epollOut
  env := ⟨⟨.wouldBlock, fun _ => ⟨0, false, ⟨.none, .empty, false⟩, ⟨[], .none, .empty⟩⟩⟩,
    unfinishedWrite, unfinishedWrite⟩

/-- The byte is queued at the client, and still pending at the backend. -/
theorem clientWritable_duplicates :
    ¬ ∀ (heap : Side → ℕ → Mem Byte) (clientFd backendFd : ℤ) (es : List PeerEvent),
      Always peerCallback RelayedOnce
        (newConnection heap clientFd .sslConn backendFd .sslConn) es := by
  intro h
  have hrun := h (fun _ _ _ => 0) 4 5 [backendDelivers, clientWritable]
  have hbroken := ((hrun.2 _ rfl).2 _ rfl).head
  exact absurd (congrArg List.length hbroken) (by decide)

end ProxyConnection
end Zroxy
