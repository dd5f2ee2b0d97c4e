import Zroxy.Events.ProxyCallbacks
import Zroxy.Events.SslEffects

/-!
# What the members of a base do

The callbacks of a base on a connection of either type, as far as the proxy sees
them: the stored mask, the system calls, whether the socket is closed, and the
bytes on their way from one side to the other.
-/

namespace Zroxy

open OffsetMemory Runs

theorem storeMask_self (stored events : UInt32) :
    storeMask (storeMask stored events) events = storeMask stored events := by
  unfold storeMask
  split <;> rfl

/-- The socket takes a byte at least. -/
def SendResult.takesAny : SendResult → Bool
  | .room n => decide (0 < n)
  | _ => false

namespace Conn

def streams : Conn → Streams
  | .plain c => c.streams
  | .ssl c => c.streams

def plainManager : Conn → BufferManager
  | .plain c => c.bufferManager
  | .ssl c => c.plainBufferManager

def connType : Conn → ConnType
  | .plain _ => .plainConn
  | .ssl _ => .sslConn

theorem offered_eq (c : Conn) : c.offered = c.plainManager.pending := by
  cases c <;> rfl

theorem eq_ssl {c : Conn} (h : c.connType = .sslConn) : ∃ s, c = .ssl s := by
  cases c with
  | plain c => cases h
  | ssl c => exact ⟨c, rfl⟩

/-! ## Masks -/

def withMask (events : UInt32) : Conn → Conn
  | .plain c => .plain { c with events := storeMask c.events events }
  | .ssl c => .ssl { c with events := storeMask c.events events }

theorem isReadyEvent_eq (c : Conn) (events : UInt32) (kind : EventKind) :
    c.isReadyEvent events kind =
      (c.withMask events, maskReady (storeMask c.events events) kind) := by
  cases c <;> rfl

@[simp] theorem withMask_neg_one (c : Conn) : c.withMask 0xFFFFFFFF = c := by
  cases c <;> rfl

@[simp] theorem withMask_withMask (c : Conn) (events : UInt32) :
    (c.withMask events).withMask events = c.withMask events := by
  cases c <;> simp [withMask, storeMask_self]

@[simp] theorem withMask_events (c : Conn) (events : UInt32) :
    (c.withMask events).events = storeMask c.events events := by
  cases c <;> rfl

@[simp] theorem withMask_io (c : Conn) (events : UInt32) : (c.withMask events).io = c.io := by
  cases c <;> rfl

@[simp] theorem withMask_isClosed (c : Conn) (events : UInt32) :
    (c.withMask events).isClosed = c.isClosed := by
  cases c <;> rfl

@[simp] theorem withMask_streams (c : Conn) (events : UInt32) :
    (c.withMask events).streams = c.streams := by
  cases c <;> rfl

@[simp] theorem withMask_plainManager (c : Conn) (events : UInt32) :
    (c.withMask events).plainManager = c.plainManager := by
  cases c <;> rfl

@[simp] theorem withMask_connType (c : Conn) (events : UInt32) :
    (c.withMask events).connType = c.connType := by
  cases c <;> rfl

/-! ## `on_read` -/

theorem onRead_snd (c : Conn) (side : Side) (env : ReadEnv) :
    (c.onRead side env).2 = readSocketNonBlock env.recv := by
  cases c with
  | plain c =>
      simp only [onRead, PlainConn.onReadEvent]
      cases env.recv <;> rfl
  | ssl c => cases side <;> exact SslConn.onReadEvent_snd _ c env

/-- **One call, one `recv`**, whatever the side, the type and the outcome; and
nothing is closed, queued or stored as a mask. -/
theorem onRead_frame (c : Conn) (side : Side) (env : ReadEnv) :
    (c.onRead side env).1.io = c.io ++ [.recv] ∧
      (c.onRead side env).1.isClosed = c.isClosed ∧
      (c.onRead side env).1.events = c.events ∧
      (c.onRead side env).1.connType = c.connType ∧
      (c.onRead side env).1.streams.queued = c.streams.queued := by
  cases c with
  | plain c =>
      simp only [onRead, PlainConn.onReadEvent]
      cases env.recv <;> exact ⟨rfl, rfl, rfl, rfl, rfl⟩
  | ssl c =>
      cases side with
      | client =>
          have h := SslConn.onReadEvent_moved SslConn.clientPlainGrowth c env
          exact ⟨h.io, h.isClosed, h.events, rfl, h.queued⟩
      | backend =>
          have h := SslConn.onReadEvent_moved SslConn.backendPlainGrowth c env
          exact ⟨h.io, h.isClosed, h.events, rfl, h.queued⟩

theorem onRead_ssl_plain (c : SslConn) (side : Side) (env : ReadEnv) :
    ((Conn.ssl c).onRead side env).1.plainManager =
        .copyChunks (SslConn.plainGrowth side) c.plainBufferManager env.plain ∧
      ((Conn.ssl c).onRead side env).1.streams.decrypted =
        c.streams.decrypted ++ chunkBytes env.plain := by
  cases side with
  | client =>
      have h := SslConn.onReadEvent_moved SslConn.clientPlainGrowth c env
      exact ⟨h.plain, h.decrypted⟩
  | backend =>
      have h := SslConn.onReadEvent_moved SslConn.backendPlainGrowth c env
      exact ⟨h.plain, h.decrypted⟩

/-! ## `on_write` -/

/-- `on_write` comes to `send`: always on a plain connection, on an SSL
connection when there is ciphertext. -/
def Sends (side : Side) (env : WriteEnv) (nbytes : ℤ) : Conn → Prop
  | .plain _ => True
  | .ssl c => c.CiphertextDue side env nbytes

instance (side : Side) (env : WriteEnv) (nbytes : ℤ) (c : Conn) :
    Decidable (c.Sends side env nbytes) := by
  cases c <;> (unfold Sends; infer_instance)

theorem onWrite_ssl {c : SslConn} {side : Side} {req : WriteIoReq} {env : WriteEnv} {c' : Conn}
    {memory : Mem Byte} {n : ℤ} (h : (Conn.ssl c).onWrite side req env = .ok (c', memory, n)) :
    ∃ req' c₁, c.onWriteEvent (SslConn.encryptIoReq side) req' env = .ok (c₁, n) ∧
      c' = .ssl c₁ ∧ memory = req'.buffer ∧ req'.sendNbytes = req.sendNbytes ∧
      (side = .client → req' = req) ∧ (side = .backend → rewriteHost req = .ok req') := by
  cases side with
  | client =>
      obtain ⟨r, hr, hres⟩ := bind_ok h
      obtain ⟨⟨c₁, m⟩, hbody, hr⟩ := bind_ok hr
      cases hr
      cases hres
      exact ⟨req, c₁, hbody, rfl, rfl, rfl, fun _ => rfl, nofun⟩
  | backend =>
      obtain ⟨r, hr, hres⟩ := bind_ok h
      obtain ⟨req', hrewrite, hr⟩ := bind_ok hr
      obtain ⟨⟨c₁, m⟩, hbody, hr⟩ := bind_ok hr
      cases hr
      cases hres
      exact ⟨req', c₁, hbody, rfl, rfl, rewriteHost_sendNbytes hrewrite, nofun,
        fun _ => hrewrite⟩

/-- `on_write` closes nothing, stores no mask, leaves the side's own plaintext
alone, and calls `send` at most once. -/
theorem onWrite_frame {c c' : Conn} {side : Side} {req : WriteIoReq} {env : WriteEnv}
    {memory : Mem Byte} {n : ℤ} (h : c.onWrite side req env = .ok (c', memory, n)) :
    c'.io = c.io ++ (if c.Sends side env req.bytes.length then [.send] else []) ∧
      c'.isClosed = c.isClosed ∧ c'.events = c.events ∧ c'.connType = c.connType ∧
      c'.plainManager = c.plainManager ∧ c'.streams.decrypted = c.streams.decrypted := by
  cases c with
  | plain c =>
      cases h
      exact ⟨rfl, rfl, rfl, rfl, rfl, rfl⟩
  | ssl c =>
      obtain ⟨req', c₁, hbody, rfl, -, hlen, -, -⟩ := onWrite_ssl h
      obtain ⟨c₂, hmoved, hend⟩ := SslConn.onWriteEvent_cases SslConn.clientPlainGrowth hbody
      have hbytes : req'.bytes.length = req.bytes.length := by
        simp [WriteIoReq.bytes, hlen]
      rw [hbytes] at hend
      have hplain : c₂.plainBufferManager = c.plainBufferManager := hmoved.plain
      have hdecrypted : c₂.streams.decrypted = c.streams.decrypted := by
        rw [hmoved.decrypted]
        simp [SslConn.queueUnencryptedBytes]
      have hio : c₂.io = c.io := by
        rw [hmoved.io]
        simp [SslConn.queueUnencryptedBytes]
      rcases hend with ⟨hnone, rfl, -⟩ | ⟨hdue, -, hflush⟩
      · have hnot : ¬ (Conn.ssl c).Sends side env req.bytes.length := hnone
        rw [if_neg hnot]
        exact ⟨hio.trans (List.append_nil _).symm, hmoved.isClosed, hmoved.events, rfl, hplain,
          hdecrypted⟩
      · obtain rfl : c₁ = (c₂.sendPending env.send).1 := congrArg Prod.fst hflush
        have hsends : (Conn.ssl c).Sends side env req.bytes.length := hdue
        rw [if_pos hsends]
        exact ⟨congrArg (· ++ [SysOp.send]) hio, hmoved.isClosed, hmoved.events, rfl, hplain,
          hdecrypted⟩

/-- What an SSL `on_write` queues and answers. -/
theorem onWrite_ssl_queued {c : SslConn} {side : Side} {req : WriteIoReq} {env : WriteEnv}
    {c' : Conn} {memory : Mem Byte} {n : ℤ}
    (h : (Conn.ssl c).onWrite side req env = .ok (c', memory, n)) :
    ∃ req', req'.sendNbytes = req.sendNbytes ∧ memory = req'.buffer ∧
      (side = .client → req' = req) ∧ (side = .backend → rewriteHost req = .ok req') ∧
      c'.streams.queued = c.streams.queued ++ req'.bytes ∧
      (if (Conn.ssl c).Sends side env req.bytes.length ∧ env.send.takesAny = true
        then n = req.sendNbytes else n ≤ 0) := by
  obtain ⟨req', c₁, hbody, rfl, hmem, hlen, hclient, hbackend⟩ := onWrite_ssl h
  obtain ⟨c₂, hmoved, hend⟩ := SslConn.onWriteEvent_cases SslConn.clientPlainGrowth hbody
  have hbytes : req'.bytes.length = req.bytes.length := by
    simp [WriteIoReq.bytes, hlen]
  rw [hbytes] at hend
  have hqueued : c₂.streams.queued = c.streams.queued ++ req'.bytes := hmoved.queued
  refine ⟨req', hlen, hmem, hclient, hbackend, ?_, ?_⟩
  · simp only [streams]
    rcases hend with ⟨-, rfl, -⟩ | ⟨-, -, hflush⟩
    · exact hqueued
    · obtain rfl : c₁ = (c₂.sendPending env.send).1 := congrArg Prod.fst hflush
      exact hqueued
  · rcases hend with ⟨hnone, -, hcode⟩ | ⟨hdue, hsome, hflush⟩
    · rw [if_neg (fun hcon => hnone hcon.1)]
      omega
    · obtain rfl : n = (c₂.flush req'.sendNbytes env.send).2 := congrArg Prod.snd hflush
      have hsends : (Conn.ssl c).Sends side env req.bytes.length := hdue
      -- the result of `send` decides what is answered
      cases hsend : env.send with
      | room k =>
          have hcode := (SslConn.sendPending_room c₂ k).2
          simp only [SslConn.flush, hcode, SendResult.takesAny, hsends, true_and,
            decide_eq_true_eq, wouldBlock, unkownError]
          by_cases hk : 0 < k
          · have hpos : 0 < min (k : ℤ) c₂.writingBufferManager.currentBufferPtr := by omega
            rw [if_pos hk, if_neg (by omega), if_neg (by omega), if_neg (by omega), hlen]
          · have hzero : min (k : ℤ) c₂.writingBufferManager.currentBufferPtr = 0 := by omega
            rw [if_neg hk, if_pos hzero]
      | wouldBlock =>
          simp [SslConn.flush, SslConn.sendPending, writeSocketNonBlockAndClearBuf,
            SendResult.takesAny, wouldBlock]
      | error =>
          simp [SslConn.flush, SslConn.sendPending, writeSocketNonBlockAndClearBuf,
            SendResult.takesAny, wouldBlock, unkownError]

/-! ## The other members -/

theorem setSource_frame (c : Conn) (memory : Mem Byte) :
    (c.setSource memory).io = c.io ∧ (c.setSource memory).isClosed = c.isClosed ∧
      (c.setSource memory).events = c.events ∧
      (c.setSource memory).connType = c.connType ∧
      (c.setSource memory).streams = c.streams := by
  cases c <;> exact ⟨rfl, rfl, rfl, rfl, rfl⟩

@[simp] theorem setSource_self (c : Conn) : c.setSource c.requestBufferReader.buffer = c := by
  cases c <;> rfl

theorem readNbytes_frame {c c' : Conn} {side : Side} {n : ℤ}
    (h : c.readNbytes side n = .ok c') :
    c'.io = c.io ∧ c'.isClosed = c.isClosed ∧ c'.events = c.events ∧
      c'.connType = c.connType ∧ c'.streams = c.streams ∧
      c'.plainManager = if n ≤ 0 then c.plainManager else c.plainManager.consume n := by
  cases c with
  | plain c =>
      cases side with
      | client => cases h
      | backend =>
          cases h
          simp only [PlainConn.readNbytesFromBuffer]
          split <;> exact ⟨rfl, rfl, rfl, rfl, rfl, rfl⟩
  | ssl c =>
      cases h
      simp only [SslConn.readNbytesFromBuffer]
      split <;> exact ⟨rfl, rfl, rfl, rfl, rfl, rfl⟩

@[simp] theorem onClose_io (c : Conn) : c.onClose.io = c.io ++ [.epollDel, .close] := by
  cases c <;> rfl

@[simp] theorem onClose_isClosed (c : Conn) : c.onClose.isClosed = true := by
  cases c <;> rfl

@[simp] theorem onClose_streams (c : Conn) : c.onClose.streams = c.streams := by
  cases c <;> rfl

@[simp] theorem onClose_plainManager (c : Conn) : c.onClose.plainManager = c.plainManager := by
  cases c <;> rfl

@[simp] theorem onClose_connType (c : Conn) : c.onClose.connType = c.connType := by
  cases c <;> rfl

theorem forceClose_eq (c : Conn) : c.forceClose = if c.isClosed then c else c.onClose := by
  cases c with
  | plain c =>
      cases h : c.isClosed <;> simp [forceClose, PlainConn.forceClose, isClosed, onClose, h]
  | ssl c =>
      cases h : c.isClosed <;> simp [forceClose, SslConn.forceClose, isClosed, onClose, h]

@[simp] theorem forceClose_isClosed (c : Conn) : c.forceClose.isClosed = true := by
  rw [forceClose_eq]
  split
  · assumption
  · exact onClose_isClosed c

@[simp] theorem forceClose_plainManager (c : Conn) :
    c.forceClose.plainManager = c.plainManager := by
  rw [forceClose_eq]
  split
  · rfl
  · exact onClose_plainManager c

theorem requestBufferReader_bytes (c : Conn) : c.requestBufferReader.bytes = c.offered := by
  cases c <;> rfl

end Conn
end Zroxy
