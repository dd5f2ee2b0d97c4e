import Zroxy.Events.ProxyEffects
import Zroxy.Events.UnreadParts
import Zroxy.Properties.EncryptQueue

/-!
# The plaintext queue of a connection, event after event

`QueueKept` says of an SSL connection that what OpenSSL has taken and what is
pending make up what was queued. Of the members of a base `on_write` alone works
on the queue, so a whole client or backend event keeps the queues of both sides
if OpenSSL takes no more than it is offered in either `on_write`.
-/

namespace Zroxy

open OffsetMemory Runs

namespace SslConn

variable {c c' : SslConn}

/-- The part of the state that plaintext passes on its way to OpenSSL. -/
def encryptSide (c : SslConn) : BufferManager × List Byte × List Byte :=
  (c.encryptBufferManager, c.streams.encrypted, c.streams.queued)

theorem unread_encryptSide : Unread encryptSide where
  drain := fun _ _ => rfl
  done := fun _ => rfl
  copy := fun _ _ _ => rfl
  feed := fun _ _ _ => rfl
  buffer := fun _ _ => rfl
  receive := fun _ _ _ => rfl

theorem QueueKept.of_encryptSide (h : c.QueueKept) (hsame : c'.encryptSide = c.encryptSide) :
    c'.QueueKept := by
  simp only [encryptSide, Prod.mk.injEq] at hsame
  obtain ⟨hmanager, hencrypted, hqueued⟩ := hsame
  exact EncryptKept.queueKept ⟨hmanager, hencrypted, hqueued⟩ h

/-- **One `on_write`**: the request is queued, OpenSSL takes a part of the queue,
and what is sent is none of it. -/
theorem QueueKept.onWriteEvent {side : Side} {req : WriteIoReq} {env : WriteEnv} {code : ℤ}
    (h : c.QueueKept)
    (hwithin : WritesWithin (c.encryptBufferManager.currentBufferPtr + req.bytes.length)
      env.writes)
    (hcall : c.onWriteEvent (encryptIoReq side) req env = .ok (c', code)) : c'.QueueKept := by
  obtain ⟨⟨c₁, stop⟩, hencrypt, hsend⟩ := bind_ok hcall
  have hqueued := h.queueUnencryptedBytes req.bytes
  have hkept : c₁.QueueKept := by
    refine (@queued_handleEncrypt _ _ side _ (.encrypt env) ⟨hqueued, rfl⟩ ?_ ?_).kept
    · have hptr : (c.queueUnencryptedBytes req.bytes).encryptBufferManager.currentBufferPtr =
          c.encryptBufferManager.currentBufferPtr + req.bytes.length :=
        BufferManager.queueBytes_ptr _ _
      rw [TakesWithin, hptr]
      exact hwithin
    · rw [handleEncrypt, hencrypt]
      rfl
  simp only at hsend
  split at hsend
  · cases hsend
    exact hkept
  · have hflush : (c', code) = c₁.flush req.sendNbytes env.send := (Except.ok.inj hsend).symm
    obtain rfl : c' = (c₁.sendPending env.send).1 := congrArg Prod.fst hflush
    exact hkept.of_encryptSide rfl

end SslConn

/-! ## The members of a base -/

namespace Conn

variable {c c' : Conn} {side : Side}

/-- The plaintext that OpenSSL has not taken yet. -/
def toEncrypt : Conn → List Byte
  | .plain _ => []
  | .ssl c => c.encryptBufferManager.pending

/-- OpenSSL, asked to encrypt `nbytes` more, takes no more than it is offered. -/
def TakesWithin (env : WriteEnv) (nbytes : ℤ) : Conn → Prop
  | .plain _ => True
  | .ssl c => WritesWithin (c.encryptBufferManager.currentBufferPtr + nbytes) env.writes

/-- What OpenSSL has taken and what is pending make up what was queued. -/
def QueueKept : Conn → Prop
  | .plain _ => True
  | .ssl c => c.QueueKept

theorem QueueKept.queued_eq (h : c.QueueKept) (hc : c.connType = .sslConn) :
    c.streams.queued = c.streams.encrypted ++ c.toEncrypt := by
  obtain ⟨s, rfl⟩ := Conn.eq_ssl hc
  exact h.fifo.symm

@[simp] theorem queueKept_withMask (c : Conn) (events : UInt32) :
    (c.withMask events).QueueKept ↔ c.QueueKept := by
  cases c with
  | plain c => rfl
  | ssl c =>
      constructor
      · exact fun h => SslConn.QueueKept.of_encryptSide h rfl
      · exact fun h => SslConn.QueueKept.of_encryptSide h rfl

@[simp] theorem takesWithin_withMask (c : Conn) (events : UInt32) (env : WriteEnv) (n : ℤ) :
    (c.withMask events).TakesWithin env n ↔ c.TakesWithin env n := by
  cases c <;> rfl

theorem QueueKept.onRead (h : c.QueueKept) (side : Side) (env : ReadEnv) :
    (c.onRead side env).1.QueueKept := by
  cases c with
  | plain c => trivial
  | ssl c =>
      cases side with
      | client => exact h.of_encryptSide (SslConn.unread_encryptSide.onReadEvent _ c env)
      | backend => exact h.of_encryptSide (SslConn.unread_encryptSide.onReadEvent _ c env)

theorem takesWithin_onRead (c : Conn) (side : Side) (read : ReadEnv) (env : WriteEnv) (n : ℤ) :
    (c.onRead side read).1.TakesWithin env n ↔ c.TakesWithin env n := by
  cases c with
  | plain c => rfl
  | ssl c =>
      have hsame : ∀ grow, (c.onReadEvent grow read).1.encryptBufferManager =
          c.encryptBufferManager :=
        fun grow => congrArg Prod.fst (SslConn.unread_encryptSide.onReadEvent grow c read)
      cases side with
      | client =>
          simp only [Conn.onRead, SslConn.onClientSslReadEvent, TakesWithin, hsame]
      | backend =>
          simp only [Conn.onRead, SslConn.onBackendSslReadEvent, TakesWithin, hsame]

theorem QueueKept.onWrite (h : c.QueueKept) {req : WriteIoReq} {env : WriteEnv}
    {memory : Mem Byte} {n : ℤ} (hwithin : c.TakesWithin env req.bytes.length)
    (hcall : c.onWrite side req env = .ok (c', memory, n)) : c'.QueueKept := by
  cases c with
  | plain c =>
      cases hcall
      trivial
  | ssl c =>
      obtain ⟨req', c₁, hbody, rfl, -, hlen, -, -⟩ := onWrite_ssl hcall
      have hbytes : req'.bytes.length = req.bytes.length := by
        simp [WriteIoReq.bytes, hlen]
      refine SslConn.QueueKept.onWriteEvent h ?_ hbody
      rw [hbytes]
      exact hwithin

@[simp] theorem queueKept_setSource (c : Conn) (memory : Mem Byte) :
    (c.setSource memory).QueueKept ↔ c.QueueKept := by
  cases c with
  | plain c => rfl
  | ssl c =>
      constructor
      · exact fun h => SslConn.QueueKept.of_encryptSide h rfl
      · exact fun h => SslConn.QueueKept.of_encryptSide h rfl

theorem takesWithin_setSource (c : Conn) (memory : Mem Byte) (env : WriteEnv) (n : ℤ) :
    (c.setSource memory).TakesWithin env n ↔ c.TakesWithin env n := by
  cases c <;> rfl

theorem readNbytes_encryptSide {n : ℤ} (h : c.readNbytes side n = .ok c') :
    (c.QueueKept → c'.QueueKept) ∧
      ∀ env m, c'.TakesWithin env m ↔ c.TakesWithin env m := by
  cases c with
  | plain c =>
      cases side with
      | client => cases h
      | backend =>
          cases h
          exact ⟨id, fun _ _ => Iff.rfl⟩
  | ssl c =>
      cases h
      simp only [SslConn.readNbytesFromBuffer]
      split
      · exact ⟨id, fun _ _ => Iff.rfl⟩
      · exact ⟨fun h => SslConn.QueueKept.of_encryptSide h rfl, fun _ _ => Iff.rfl⟩

theorem QueueKept.onClose (h : c.QueueKept) : c.onClose.QueueKept := by
  cases c with
  | plain c => trivial
  | ssl c => exact SslConn.QueueKept.of_encryptSide h rfl

theorem QueueKept.forceClose (h : c.QueueKept) : c.forceClose.QueueKept := by
  rw [forceClose_eq]
  split
  · exact h
  · exact h.onClose

end Conn

/-! ## Whole events -/

variable {me : Side} {events : UInt32} {env : EventEnv} {ready : Bool} {c d c' d' : Conn}

/-- The READ branch, if the peer's OpenSSL takes no more than it is offered. The
side's own queue is as long as before. -/
theorem ReadBranch.queueKept (h : ReadBranch me env ready c d c' d') (hc : c.QueueKept)
    (hd : d.QueueKept)
    (hwithin : d.TakesWithin env.relay (c.onRead me env.read).1.offered.length) :
    c'.QueueKept ∧ d'.QueueKept ∧ ∀ env n, c'.TakesWithin env n ↔ c.TakesWithin env n := by
  have hread := hc.onRead me env.read
  have hsame := c.takesWithin_onRead me env.read
  cases h with
  | notReady => exact ⟨hc, hd, fun _ _ => Iff.rfl⟩
  | nothing => exact ⟨hread, hd, hsame⟩
  | kept => exact ⟨hread, hd, hsame⟩
  | relayed _ _ _ _ _ memory n hwrite hconsume =>
      rw [← Conn.requestBufferReader_bytes] at hwithin
      obtain ⟨hkept, htakes⟩ := Conn.readNbytes_encryptSide hconsume
      refine ⟨hkept ((Conn.queueKept_setSource _ memory).mpr hread),
        hd.onWrite hwithin hwrite, fun env n => ?_⟩
      rw [htakes, Conn.takesWithin_setSource, hsame]

theorem WriteBranch.queueKept (h : WriteBranch me env ready c d c' d') (hc : c.QueueKept)
    (hd : d.QueueKept) (hwithin : c.TakesWithin env.write d.offered.length) :
    c'.QueueKept ∧ d'.QueueKept := by
  cases h with
  | notReady => exact ⟨hc, hd⟩
  | written _ _ memory n hwrite =>
      rw [← Conn.requestBufferReader_bytes] at hwithin
      exact ⟨hc.onWrite hwithin hwrite, (Conn.queueKept_setSource d memory).mpr hd⟩

end Zroxy
