import Zroxy.Events.ProxyEffects
import Zroxy.Parsers.HostRewriting

/-!
# A piece of client plaintext on its way to an SSL backend

The path of `zxy_handle_client_events` from a readable client to a backend that
can write, when everything on it goes well: the read event appends a piece to
the client's plain buffer, OpenSSL takes what `zxy_on_backend_ssl_write_event`
queues, and the socket takes the ciphertext. What is queued is the piece as the
Host rewriting leaves it, and the path is ready for the next piece.
-/

namespace Zroxy

open OffsetMemory Runs

/-! ## Encrypting and sending everything -/

namespace SslConn

variable {c : SslConn}

/-- An `SSL_write` that takes everything ends the encryption loop. -/
theorem encryptLoop_all {w : WriteCall} {ws : List WriteCall} (hret : 0 < w.ret)
    (hptr : c.encryptBufferManager.currentBufferPtr = w.ret) :
    ∃ code, encryptLoop (w :: ws) c = .ok ((c.takeEncrypted w.ret).drainWbio w.wbio, code) := by
  have hafter : c.afterWrite w = (c.takeEncrypted w.ret).drainWbio w.wbio := if_pos hret
  have hleft := afterWrite_ptr c w
  rw [hptr, max_eq_left hret.le, sub_self] at hleft
  rw [encryptLoop_turn w ws (hptr ▸ hret), ← hafter]
  cases w.code with
  | some code => exact ⟨code, rfl⟩
  | none => exact ⟨0, encryptLoop_idle ws (by omega)⟩

/-- OpenSSL and the socket take everything: the handshake is finished, the first
`SSL_write` takes all `nbytes` and yields ciphertext, and `send` has room for
what is then pending. -/
structure TakesAll (c : SslConn) (env : WriteEnv) (nbytes : ℕ) : Prop where
  initFinished : env.initFinished = true
  taken : ∃ w ws n, env.writes = w :: ws ∧ w.ret = nbytes ∧ w.wbio.chunks ≠ [] ∧
    env.send = .room n ∧
    c.writingBufferManager.currentBufferPtr + (chunkBytes w.wbio.chunks).length ≤ n

theorem chunkBytes_length_pos {ks : List Chunk} (h : ks ≠ []) : 0 < (chunkBytes ks).length := by
  obtain ⟨k, ks, rfl⟩ := List.exists_cons_of_ne_nil h
  have hpos := k.length_pos
  simp only [chunkBytes_cons, List.length_append]
  omega

/-- **A write that goes through**: the request is queued, encrypted and sent, and
nothing is left of it. -/
theorem onWriteEvent_takesAll {req : WriteIoReq} {env : WriteEnv}
    (henv : c.TakesAll env req.bytes.length) (hpos : 0 < req.bytes.length)
    (hencrypt : c.encryptBufferManager.currentBufferPtr = 0)
    (hwriting : 0 ≤ c.writingBufferManager.currentBufferPtr) :
    ∃ c', c.onWriteEvent backendEncryptIoReq req env = .ok (c', req.sendNbytes) ∧
      c'.streams.queued = c.streams.queued ++ req.bytes ∧ c'.events = c.events ∧
      c'.encryptBufferManager.currentBufferPtr = 0 ∧
      c'.writingBufferManager.currentBufferPtr = 0 := by
  obtain ⟨hinit, w, ws, n, hwrites, hret, hchunks, hsend, hroom⟩ := henv
  -- `q` has the request queued, and `d` has it encrypted
  set q := c.queueUnencryptedBytes req.bytes with hq
  have hptr : q.encryptBufferManager.currentBufferPtr = w.ret := by
    rw [hq, queueUnencryptedBytes, BufferManager.queueBytes_ptr, hencrypt, hret, zero_add]
  obtain ⟨code, hloop⟩ := @encryptLoop_all q w ws (by omega) hptr
  have hmoved : Moved clientPlainGrowth q ((q.takeEncrypted w.ret).drainWbio w.wbio) [] [] _ :=
    (takeEncrypted_moved _ q w.ret).trans (drainWbio_moved _ _ w.wbio)
  have hleft := takeEncrypted_drainWbio_ptr q w.ret w.wbio
  rw [hptr, sub_self] at hleft
  set d := (q.takeEncrypted w.ret).drainWbio w.wbio with hd
  have hcipher : d.writingBufferManager.currentBufferPtr =
      c.writingBufferManager.currentBufferPtr + (chunkBytes w.wbio.chunks).length := by
    rw [hmoved.writing, BufferManager.queueChunks_ptr]
    rfl
  -- the socket has room for all of it, so the memmove leaves nothing
  have hmin : min (n : ℤ) d.writingBufferManager.currentBufferPtr =
      d.writingBufferManager.currentBufferPtr := by omega
  obtain ⟨hmanager, hcode⟩ := sendPending_room d n
  rw [hmin] at hmanager hcode
  have hsome := chunkBytes_length_pos hchunks
  refine ⟨(d.sendPending (.room n)).1, ?_, hmoved.queued, hmoved.events, hleft, ?_⟩
  · rw [onWriteEvent, ← hq, backendEncryptIoReq, hinit, hwrites, hsend]
    simp only [Bool.not_true, Bool.false_eq_true, if_false, hloop, Except.bind]
    have hblock : d.writingBufferManager.currentBufferPtr ≠ wouldBlock := by
      rw [wouldBlock]
      omega
    have herror : d.writingBufferManager.currentBufferPtr ≠ unkownError := by
      rw [unkownError]
      omega
    rw [if_neg (by omega), flush, hcode, if_neg (by omega), if_neg hblock, if_neg herror]
  · rw [hmanager, BufferManager.consume_ptr, sub_self]

end SslConn

/-! ## Byte after byte into the client's plain buffer -/

namespace BufferManager

variable {b : BufferManager}

/-- Behind the client's growth the sentinel is not set: a growth clears it. -/
theorem growIfFull_shouldResizeBuffer (h : 2 ≤ b.maxSizeOfBuffer) :
    b.growIfFull.shouldResizeBuffer = false := by
  unfold growIfFull
  split
  · have hcleared : b.probed.doubleBufferSize.buffer
        (b.probed.doubleBufferSize.maxSizeOfBuffer - 1) = 0 :=
      fill_inside ⟨by simp; omega, by simp; omega⟩
    rw [shouldResizeBuffer, hcleared]
    rfl
  · exact eq_false_of_ne_true ‹_›

theorem appendBytes_shouldResizeBuffer {x : Byte} (h : b.shouldResizeBuffer = false)
    (hset : (b.appendBytes [x]).shouldResizeBuffer = true) :
    (b.appendBytes [x]).currentBufferPtr ≤ b.maxSizeOfBuffer := by
  by_contra hover
  rw [appendBytes_ptr, List.length_singleton] at hover
  have hsame : (b.appendBytes [x]).buffer (b.maxSizeOfBuffer - 1) =
      b.buffer (b.maxSizeOfBuffer - 1) := store_below (by push_cast at hover; omega)
  rw [shouldResizeBuffer, appendBytes_max, hsame] at hset
  exact absurd (hset.symm.trans h) (by decide)

/-- Delivered byte by byte, plaintext is appended whatever the buffer holds: the
sentinel is seen before the buffer overflows. -/
theorem pending_copyChunks_single {xs : List Byte} (h0 : 0 ≤ b.currentBufferPtr)
    (hmax : 2 ≤ b.maxSizeOfBuffer)
    (hfull : b.shouldResizeBuffer = true → b.currentBufferPtr ≤ b.maxSizeOfBuffer) :
    (copyChunks (SslConn.plainGrowth .client) b (xs.map Chunk.single)).pending =
      b.pending ++ xs := by
  induction xs generalizing b with
  | nil => simp
  | cons x xs ih =>
      have hgrown : b.growIfFull.pending = b.pending := by
        by_cases hset : b.shouldResizeBuffer = true
        · exact pending_growIfFull (hfull hset) (by omega)
        · rw [growIfFull, if_neg hset, pending_probed]
      have hptr : 0 ≤ b.growIfFull.currentBufferPtr := by rwa [growIfFull_ptr]
      have hclear := growIfFull_shouldResizeBuffer hmax
      have hrest := @ih (b.growIfFull.appendBytes [x])
        (by rw [appendBytes_ptr]; omega) (two_le_growIfFull_max hmax)
        (appendBytes_shouldResizeBuffer hclear)
      rw [List.map_cons, copyChunks_cons]
      refine hrest.trans ?_
      rw [pending_appendBytes hptr, hgrown, List.append_assoc, List.singleton_append]

end BufferManager

/-! ## One event -/

namespace ProxyConnection

variable {p : ProxyConnection} {c b : SslConn}

def readable (env : EventEnv) : PeerEvent := ⟨.client, epollIn, env⟩

/-- The path from the client to the backend is open, and nothing is pending on
it. -/
structure RelayReady (p : ProxyConnection) (c b : SslConn) : Prop where
  live : p.Live
  running : p.timerStatusAndFd ≠ timerIsUp
  client : p.client.params = .ssl c
  backend : p.backend.params = .ssl b
  writable : maskReady b.events .write = true
  plain_ptr : c.plainBufferManager.currentBufferPtr = 0
  plain_max : 2 ≤ c.plainBufferManager.maxSizeOfBuffer
  encrypt_ptr : b.encryptBufferManager.currentBufferPtr = 0
  writing_ptr : 0 ≤ b.writingBufferManager.currentBufferPtr

/-- The read event appends the piece to the client's plain buffer, and OpenSSL
and the socket take all of it. -/
structure Delivers (c b : SslConn) (env : EventEnv) (piece : List Byte) : Prop where
  received : 0 < ((Conn.ssl c).onRead .client env.read).2
  appended : ((Conn.ssl c).onRead .client env.read).1.offered =
    (Conn.ssl c).offered ++ piece
  takesAll : b.TakesAll env.relay piece.length

theorem handleReadEvent_relays {me : Side} {events : UInt32} {env : EventEnv}
    (hfree : (p.base me.peer).setFree = false)
    (hready : maskReady (storeMask (p.base me).params.events events) .read = true)
    (hread : 0 < readSocketNonBlock env.read.recv)
    (hmask : maskReady (p.base me.peer).params.events .write = true) :
    ∃ q : ProxyConnection,
      (q.base me).params = (((p.base me).params.withMask events).onRead me env.read).1 ∧
      (q.base me.peer).params = (p.base me.peer).params ∧
      p.handleReadEvent me events env = (q.writeFrom me env.relay).bind fun r =>
        (r.1.readNbytes me r.2).bind fun p => .ok (p, false) := by
  -- the three calls in front of the peer's `on_write`
  obtain ⟨p₁, hp₁, hme₁, hpeer₁, -⟩ := isReadyEvent_cases p me events .read
  obtain ⟨p₂, hp₂, hme₂, hpeer₂, -⟩ := onRead_cases p₁ me env.read
  obtain ⟨p₃, hp₃, hpeer₃, hme₃, -⟩ := isReadyEvent_cases p₂ me.peer 0xFFFFFFFF .write
  have hopen : (p₁.base me.peer).setFree = false := by rw [hpeer₁, hfree]
  rw [hpeer₂, hpeer₁] at hp₃ hpeer₃
  rw [Conn.withMask_neg_one] at hpeer₃
  rw [Side.peer_peer] at hme₃
  rw [Conn.onRead_snd] at hp₂
  refine ⟨p₃, by rw [hme₃, hme₂, hme₁], hpeer₃, ?_⟩
  unfold handleReadEvent
  rw [hp₁, hready]
  simp only [Bool.not_true, Bool.false_eq_true, if_false, checkPeerClose_eq hopen, hp₂]
  rw [if_pos hread, hp₃]
  simp only [storeMask, ne_eq, not_true_eq_false, if_false]
  rw [if_pos hmask]

theorem handleWriteEvent_notReady {me : Side} {events : UInt32} {env : EventEnv}
    (hready : maskReady (storeMask (p.base me).params.events events) .write = false) :
    ∃ p', p.handleWriteEvent me events env = .ok p' := by
  obtain ⟨q, hq, -⟩ := isReadyEvent_cases p me events .write
  rw [hready] at hq
  exact ⟨q, by simp [handleWriteEvent, hq]⟩

theorem writeFrom_error {source : Side} {env : WriteEnv} {f : Fault}
    (h : (p.base source.peer).params.onWrite source.peer
      (p.base source).params.requestBufferReader env = .error f) :
    p.writeFrom source env = .error f := by
  simp [writeFrom, h, Except.bind]

theorem writeFrom_written {source : Side} {env : WriteEnv} {r : Conn × Mem Byte × ℤ}
    (h : (p.base source.peer).params.onWrite source.peer
      (p.base source).params.requestBufferReader env = .ok r) :
    ∃ p', p.writeFrom source env = .ok (p', r.2.2) ∧
      (p'.base source).params = (p.base source).params.setSource r.2.1 := by
  refine ⟨(((p.record source .requestBufferReader).record source.peer .onWrite).setParams
    source.peer r.1).setParams source ((p.base source).params.setSource r.2.1), ?_, ?_⟩
  · simp [writeFrom, h, Except.bind]
  · simp

/-- The request that the client's readable event hands to the backend. -/
def relayedRequest (c : SslConn) (env : EventEnv) : WriteIoReq :=
  (((Conn.ssl c).withMask epollIn).onRead .client env.read).1.requestBufferReader

theorem peerCallback_readable (h : p.RelayReady c b) {env : EventEnv}
    (hread : 0 < readSocketNonBlock env.read.recv) :
    match (Conn.ssl b).onWrite .backend (relayedRequest c env) env.relay with
    | .error f => p.peerCallback (readable env) = .error f
    | .ok _ => ∃ p', p.peerCallback (readable env) = .ok p' := by
  have hclient : (p.base .client).params = .ssl c := h.client
  have hbackend : (p.base .backend).params = .ssl b := h.backend
  obtain ⟨p₁, hp₁, hme₁, hpeer₁, -⟩ := isReadyEvent_cases p .client epollIn .close
  rw [hclient] at hp₁ hme₁
  have hstored : ∀ stored, storeMask stored epollIn = epollIn := fun _ => if_pos (by decide)
  -- `EPOLLIN` alone does not close
  rw [hstored] at hp₁
  have hclose : maskReady epollIn .close = false := by decide
  have hevents : (p₁.base .client).params.events = epollIn := by
    rw [hme₁, Conn.withMask_events, hstored]
  obtain ⟨q, hqc, hqb, hbranch⟩ := @handleReadEvent_relays p₁ .client epollIn env
    (by rw [hpeer₁]; exact h.live .backend) (by rw [hevents, hstored]; decide) hread
    (by rw [hpeer₁]; exact hbackend ▸ h.writable)
  have hevent : p.peerCallback (readable env) =
      ((p₁.handleReadEvent .client epollIn env).bind fun r =>
        if r.2 then .ok r.1 else r.1.handleWriteEvent .client epollIn env).bind fun p =>
          .ok { p with timerStatusAndFd := relaxTimer } := by
    simp [peerCallback, readable, proxyEventsCallback, h.running, Side.sockType,
      handleClientEvents, handlePeerEvents, hp₁, hclose]
  rw [hevent, hbranch]
  rw [hme₁] at hqc
  rw [hpeer₁] at hqb
  have hwrite : (q.base Side.client.peer).params.onWrite Side.client.peer
      (q.base .client).params.requestBufferReader env.relay =
        (Conn.ssl b).onWrite .backend (relayedRequest c env) env.relay := by
    rw [hqb, hqc, Conn.withMask_withMask]
    exact congrArg (Conn.onWrite .backend (relayedRequest c env) env.relay) hbackend
  cases hend : (Conn.ssl b).onWrite .backend (relayedRequest c env) env.relay with
  | error f => simp [writeFrom_error (hwrite.trans hend), Except.bind]
  | ok r =>
      obtain ⟨t, ht, htc⟩ := writeFrom_written (hwrite.trans hend)
      obtain ⟨s, hs⟩ : ∃ s, (t.base .client).params = .ssl s := by
        refine Conn.eq_ssl ?_
        rw [htc, hqc, (Conn.setSource_frame _ _).2.2.2.1, (Conn.onRead_frame _ _ _).2.2.2.1]
        rfl
      have hconsume : t.readNbytes .client r.2.2 =
          .ok ((t.record .client .readNbytes).setParams .client
            (.ssl (s.readNbytesFromBuffer r.2.2))) := by
        simp [readNbytes, hs, Conn.readNbytes, Except.bind]
      -- and it gives the WRITE branch nothing to do
      obtain ⟨u, hu⟩ := @handleWriteEvent_notReady
        ((t.record .client .readNbytes).setParams .client (.ssl (s.readNbytesFromBuffer r.2.2)))
        .client epollIn env (by rw [hstored]; decide)
      exact ⟨{ u with timerStatusAndFd := relaxTimer }, by simp [ht, hconsume, hu, Except.bind]⟩

theorem relayed_of_handled {env : EventEnv} {c' b' d : Conn} {memory : Mem Byte} {n : ℤ}
    (h : Handled .client epollIn env (.ssl c) (.ssl b) c' b')
    (hread : 0 < readSocketNonBlock env.read.recv) (hwritable : maskReady b.events .write = true)
    (hwrite : (Conn.ssl b).onWrite .backend (relayedRequest c env) env.relay =
      .ok (d, memory, n)) :
    b' = d ∧ ∃ s, c' = .ssl s ∧
      s.plainBufferManager.maxSizeOfBuffer =
        (BufferManager.copyChunks (SslConn.plainGrowth .client) c.plainBufferManager
          env.read.plain).maxSizeOfBuffer ∧
      s.plainBufferManager.currentBufferPtr =
        if n ≤ 0 then (relayedRequest c env).sendNbytes
        else (relayedRequest c env).sendNbytes - n := by
  have hstored : ∀ stored, storeMask stored epollIn = epollIn := fun _ => if_pos (by decide)
  cases h with
  | closed hclose =>
      rw [hstored] at hclose
      exact absurd hclose (by decide)
  | served _ c₁ b₁ _ _ hbranch hbranch' =>
      rw [hstored] at hbranch hbranch'
      cases hbranch' with
      | written hready => exact absurd hready (by decide)
      | notReady _ =>
          cases hbranch with
          -- readable, something received, and the backend writable: it is relayed
          | notReady hready => exact absurd hready (by decide)
          | nothing _ hnone =>
              rw [Conn.onRead_snd] at hnone
              omega
          | kept _ _ hmask => exact absurd (hwritable.symm.trans hmask) (by decide)
          | relayed _ _ _ _ c₂ memory' n' hcall hconsume =>
              cases hwrite.symm.trans hcall
              have hplain := (Conn.onRead_ssl_plain
                { c with events := storeMask c.events epollIn } .client env.read).1
              cases hconsume
              refine ⟨rfl, _, rfl, ?_⟩
              rw [← hplain]
              simp only [SslConn.readNbytesFromBuffer]
              split <;> exact ⟨rfl, rfl⟩

theorem relayedRequest_delivered (h : p.RelayReady c b) {env : EventEnv} {piece : List Byte}
    (hd : Delivers c b env piece) :
    (relayedRequest c env).bytes = piece ∧ (relayedRequest c env).sendNbytes = piece.length := by
  have hmanager := (Conn.onRead_ssl_plain c .client env.read).1
  have hstored := (Conn.onRead_ssl_plain
    { c with events := storeMask c.events epollIn } .client env.read).1
  have hpending : (Conn.ssl c).offered = [] := BufferManager.pending_eq_nil_iff.mpr h.plain_ptr.le
  have hbytes : (relayedRequest c env).bytes = piece := by
    rw [relayedRequest, Conn.requestBufferReader_bytes, Conn.offered_eq, Conn.withMask, hstored,
      ← hmanager, ← Conn.offered_eq, hd.appended, hpending, List.nil_append]
  have hptr : 0 ≤ (relayedRequest c env).sendNbytes := by
    have hcopy := BufferManager.copyChunks_ptr .client c.plainBufferManager env.read.plain
    rw [h.plain_ptr] at hcopy
    have hsend : (relayedRequest c env).sendNbytes =
        (((Conn.ssl c).withMask
          epollIn).onRead .client env.read).1.plainManager.currentBufferPtr := by
      rfl
    rw [hsend, Conn.withMask, hstored, hcopy]
    omega
  refine ⟨hbytes, ?_⟩
  rw [← hbytes, WriteIoReq.bytes, window_length]
  omega

/-- **One piece.** What is queued for the backend is the piece as the rewriting
leaves it, and the path is ready again; where the rewriting faults, the event
does. -/
theorem relayReady_step (h : p.RelayReady c b) {env : EventEnv} {piece : List Byte}
    (hne : piece ≠ []) (hd : Delivers c b env piece) :
    match hostRewritten piece with
    | .error f => p.peerCallback (readable env) = .error f
    | .ok bytes => ∃ p' c' b', p.peerCallback (readable env) = .ok p' ∧ p'.RelayReady c' b' ∧
        b'.streams.queued = b.streams.queued ++ bytes := by
  have hread : 0 < readSocketNonBlock env.read.recv := by
    simpa [Conn.onRead_snd] using hd.received
  obtain ⟨hbytes, hlen⟩ := relayedRequest_delivered h hd
  have hrewrite := @rewriteHost_bytes (relayedRequest c env) (by omega)
  have hevent := peerCallback_readable h hread
  rw [hbytes] at hrewrite
  rw [← hrewrite]
  -- the event ends the way the rewriting does
  cases hreq : rewriteHost (relayedRequest c env) with
  | error f =>
      have hwrite : (Conn.ssl b).onWrite .backend (relayedRequest c env) env.relay =
          .error f := by
        simp [Conn.onWrite, SslConn.onBackendSslWriteEvent, hreq, Except.bind]
      rw [hwrite] at hevent
      exact hevent
  | ok req =>
      have hlen' : req.sendNbytes = piece.length := (rewriteHost_sendNbytes hreq).trans hlen
      have hbytes' : req.bytes.length = piece.length := by
        rw [WriteIoReq.bytes, window_length, hlen', Int.toNat_natCast]
      have hpos := List.length_pos_iff.mpr hne
      obtain ⟨b', hbody, hqueued, hevents, hencrypt, hwriting⟩ :=
        @SslConn.onWriteEvent_takesAll b req env.relay (hbytes' ▸ hd.takesAll) (by omega)
          h.encrypt_ptr h.writing_ptr
      have hwrite : (Conn.ssl b).onWrite .backend (relayedRequest c env) env.relay =
          .ok (.ssl b', req.buffer, req.sendNbytes) := by
        simp [Conn.onWrite, SslConn.onBackendSslWriteEvent, hreq, hbody, Except.bind]
      rw [hwrite] at hevent
      obtain ⟨p', hstep⟩ := hevent
      obtain ⟨q, hquiet, hcases, rfl⟩ := proxyEventsCallback_handled h.running h.live hstep
      have hcases : Handled .client epollIn env (.ssl c) (.ssl b) q.client.params
          q.backend.params := by
        rw [← h.client, ← h.backend]
        exact hcases
      obtain ⟨hbackend, c', hclient, hmax, hptr⟩ :=
        relayed_of_handled hcases hread h.writable hwrite
      refine ⟨_, c', b', hstep, ?_, hqueued⟩
      exact
        { live := (hquiet.live h.live).timerStatus relaxTimer
          running := show relaxTimer ≠ timerIsUp by decide
          client := hclient
          backend := hbackend
          writable := by rw [hevents]; exact h.writable
          plain_ptr := by rw [hptr, if_neg (by omega), hlen, hlen', sub_self]
          plain_max := by rw [hmax]; exact BufferManager.two_le_copyChunks_client h.plain_max _
          encrypt_ptr := hencrypt
          writing_ptr := hwriting.ge }

/-- What the kernel and OpenSSL answer when a piece goes through byte by byte,
with `room` bytes of room in the socket. -/
def deliveryOf (piece : List Byte) (room : ℕ) : EventEnv :=
  let write : WriteEnv :=
    { initFinished := true
      handshake := ⟨.none, .empty, true⟩
      writes := [⟨piece.length, .none, .one (.single 23)⟩]
      send := .room room }
  { read :=
      { recv := .received (.single 23)
        rounds := fun _ =>
          { bioWrite := 1
            initFinished := true
            handshake := ⟨.none, .empty, true⟩
            reads := ⟨piece.map .single, .wantRead, .empty⟩ } }
    relay := write
    write := write }

theorem delivers_deliveryOf (h : p.RelayReady c b) (piece : List Byte) :
    Delivers c b
      (deliveryOf piece (b.writingBufferManager.currentBufferPtr.toNat + 1)) piece where
  received := by
    rw [Conn.onRead_snd]
    exact Int.one_pos
  appended := by
    have hptr := h.plain_ptr
    have hmax := h.plain_max
    rw [Conn.offered_eq, (Conn.onRead_ssl_plain c .client _).1]
    have hplain : (deliveryOf piece
        (b.writingBufferManager.currentBufferPtr.toNat + 1)).read.plain =
          piece.map Chunk.single := by
      exact List.append_nil _
    rw [hplain]
    exact BufferManager.pending_copyChunks_single hptr.ge hmax fun _ => by omega
  takesAll :=
    { initFinished := rfl
      taken := ⟨_, [], _, rfl, rfl, List.cons_ne_nil _ _, rfl, by
        simp [WbioReads.one, Chunk.single]⟩ }

end ProxyConnection
end Zroxy
