import Zroxy.Events.ProxyEffects
import Zroxy.Events.UnreadParts

/-!
# A connection keeps its socket

`sock_fd` is set when a connection is made, and no callback assigns it.
-/

namespace Zroxy

open OffsetMemory Runs

namespace SslConn

variable {c c' : SslConn}

theorem unread_sockFd : Unread (·.sockFd) where
  drain := fun _ _ => rfl
  done := fun _ => rfl
  copy := fun _ _ _ => rfl
  feed := fun _ _ _ => rfl
  buffer := fun _ _ => rfl
  receive := fun _ _ _ => rfl

theorem afterWrite_sockFd (c : SslConn) (w : WriteCall) : (c.afterWrite w).sockFd = c.sockFd := by
  unfold afterWrite
  split
  · exact unread_sockFd.drainWbio _ _
  · rfl

theorem encryptLoop_sockFd {ws : List WriteCall} {code : ℤ}
    (h : encryptLoop ws c = .ok (c', code)) : c'.sockFd = c.sockFd := by
  induction ws generalizing c with
  | nil =>
      unfold encryptLoop at h
      split at h
      · cases h
      · cases h
        rfl
  | cons w ws ih =>
      by_cases hpending : 0 < c.encryptBufferManager.currentBufferPtr
      · have hturn := afterWrite_sockFd c w
        rw [encryptLoop_turn w ws hpending] at h
        cases hcode : w.code with
        | some stop =>
            rw [hcode] at h
            cases h
            exact hturn
        | none =>
            rw [hcode] at h
            exact (ih h).trans hturn
      · rw [encryptLoop_idle _ hpending] at h
        cases h
        rfl

theorem encryptIoReq_sockFd {side : Side} {env : WriteEnv} {code : ℤ}
    (h : encryptIoReq side c env = .ok (c', code)) : c'.sockFd = c.sockFd := by
  cases side with
  | client =>
      simp only [encryptIoReq, clientEncryptIoReq] at h
      split at h
      · cases h
        rfl
      · exact encryptLoop_sockFd h
  | backend =>
      simp only [encryptIoReq, backendEncryptIoReq] at h
      split at h
      · have hshake := unread_sockFd.handshake c env.handshake
        rcases hcall : c.handshake env.handshake with ⟨c₁, _ | stop⟩ <;>
          rw [hcall] at hshake h
        · exact (encryptLoop_sockFd h).trans hshake
        · cases h
          exact hshake
      · exact encryptLoop_sockFd h

theorem onWriteEvent_sockFd {side : Side} {req : WriteIoReq} {env : WriteEnv} {code : ℤ}
    (h : c.onWriteEvent (encryptIoReq side) req env = .ok (c', code)) : c'.sockFd = c.sockFd := by
  obtain ⟨⟨c₁, stop⟩, hencrypt, hsend⟩ := bind_ok h
  have hkept : c₁.sockFd = (c.queueUnencryptedBytes req.bytes).sockFd :=
    encryptIoReq_sockFd hencrypt
  simp only at hsend
  split at hsend
  · cases hsend
    exact hkept
  · have hflush : (c', code) = c₁.flush req.sendNbytes env.send := (Except.ok.inj hsend).symm
    obtain rfl : c' = (c₁.sendPending env.send).1 := congrArg Prod.fst hflush
    exact hkept

end SslConn

namespace Conn

variable {c c' : Conn}

/-- `sock_fd`. -/
def sockFd : Conn → ℤ
  | .plain c => c.sockFd
  | .ssl c => c.sockFd

@[simp] theorem withMask_sockFd (c : Conn) (events : UInt32) :
    (c.withMask events).sockFd = c.sockFd := by
  cases c <;> rfl

@[simp] theorem onClose_sockFd (c : Conn) : c.onClose.sockFd = c.sockFd := by
  cases c <;> rfl

@[simp] theorem forceClose_sockFd (c : Conn) : c.forceClose.sockFd = c.sockFd := by
  rw [forceClose_eq]
  split
  · rfl
  · exact onClose_sockFd c

@[simp] theorem setSource_sockFd (c : Conn) (memory : Mem Byte) :
    (c.setSource memory).sockFd = c.sockFd := by
  cases c <;> rfl

theorem onRead_sockFd (c : Conn) (side : Side) (env : ReadEnv) :
    (c.onRead side env).1.sockFd = c.sockFd := by
  cases c with
  | plain c =>
      simp only [onRead, PlainConn.onReadEvent]
      cases env.recv <;> rfl
  | ssl c =>
      cases side with
      | client => exact SslConn.unread_sockFd.onReadEvent _ c env
      | backend => exact SslConn.unread_sockFd.onReadEvent _ c env

theorem onWrite_sockFd {side : Side} {req : WriteIoReq} {env : WriteEnv} {memory : Mem Byte}
    {n : ℤ} (h : c.onWrite side req env = .ok (c', memory, n)) : c'.sockFd = c.sockFd := by
  cases c with
  | plain c =>
      cases h
      rfl
  | ssl c =>
      obtain ⟨req', c₁, hbody, rfl, -⟩ := onWrite_ssl h
      exact SslConn.onWriteEvent_sockFd hbody

theorem readNbytes_sockFd {side : Side} {n : ℤ} (h : c.readNbytes side n = .ok c') :
    c'.sockFd = c.sockFd := by
  cases c with
  | plain c =>
      cases side with
      | client => cases h
      | backend =>
          cases h
          simp only [PlainConn.readNbytesFromBuffer]
          split <;> rfl
  | ssl c =>
      cases h
      simp only [SslConn.readNbytesFromBuffer]
      split <;> rfl

end Conn

/-! ## Whole events -/

variable {me : Side} {events : UInt32} {env : EventEnv} {ready : Bool} {c d c' d' : Conn}

theorem ReadBranch.sockFd (h : ReadBranch me env ready c d c' d') :
    c'.sockFd = c.sockFd ∧ d'.sockFd = d.sockFd := by
  have hread := c.onRead_sockFd me env.read
  cases h with
  | notReady => exact ⟨rfl, rfl⟩
  | nothing => exact ⟨hread, rfl⟩
  | kept => exact ⟨hread, rfl⟩
  | relayed _ _ _ _ _ memory _ hwrite hconsume =>
      have hconsumed := Conn.readNbytes_sockFd hconsume
      rw [Conn.setSource_sockFd] at hconsumed
      exact ⟨hconsumed.trans hread, Conn.onWrite_sockFd hwrite⟩

theorem WriteBranch.sockFd (h : WriteBranch me env ready c d c' d') :
    c'.sockFd = c.sockFd ∧ d'.sockFd = d.sockFd := by
  cases h with
  | notReady => exact ⟨rfl, rfl⟩
  | written _ _ memory _ hwrite =>
      exact ⟨Conn.onWrite_sockFd hwrite, d.setSource_sockFd memory⟩

/-- **An event** leaves both sides the sockets they have. -/
theorem Handled.sockFd (h : Handled me events env c d c' d') :
    c'.sockFd = c.sockFd ∧ d'.sockFd = d.sockFd := by
  cases h with
  | closed => exact ⟨by simp, rfl⟩
  | served _ _ _ _ _ hread hwrite =>
      obtain ⟨hme, hpeer⟩ := hread.sockFd
      obtain ⟨hme', hpeer'⟩ := hwrite.sockFd
      rw [Conn.withMask_sockFd] at hme hme'
      exact ⟨hme'.trans hme, hpeer'.trans hpeer⟩

end Zroxy
