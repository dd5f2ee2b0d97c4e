import Zroxy.Events.SslEffects

/-!
# The plaintext queue of an SSL connection

Plaintext waits in the encryption buffer until `SSL_write` takes it, a part at a
time, while the loop also drains ciphertext and may leave on several paths.
`Fifo` says that what was taken, followed by what is waiting, is what was queued.

A run alternates between queueing and `zxy_*_encrypt_io_req`, and what was queued
is recorded beside it. `encryptStates` lists every state the latter goes through,
also when OpenSSL keeps it in its loop, and `fifo_run` says that `Fifo` holds in
all of them.
-/

namespace Zroxy

open OffsetMemory Runs

/-- Each `SSL_write` that is made takes at most what is pending then. -/
def WritesWithin : ℤ → List WriteCall → Prop
  | _, [] => True
  | pending, w :: ws =>
      0 < pending → w.ret ≤ pending ∧ (w.code = none → WritesWithin (pending - max w.ret 0) ws)

namespace SslConn

variable {c c' : SslConn} {side : Side} {queued : List Byte}

/-- What was taken by `SSL_write` and what is pending make up `queued`. -/
def Fifo (queued : List Byte) (c : SslConn) : Prop :=
  c.streams.encrypted ++ c.encryptBufferManager.pending = queued

/-- `Fifo`, in a buffer with consistent sizes. -/
structure QueueKept (c : SslConn) : Prop where
  sized : c.encryptBufferManager.WellSized
  fifo : c.Fifo c.streams.queued

/-- The queue is in order, and `queued` is what went into it. -/
structure Queued (queued : List Byte) (c : SslConn) : Prop where
  kept : c.QueueKept
  queued_eq : c.streams.queued = queued

theorem EncryptKept.queueKept (h : EncryptKept c c') (hc : c.QueueKept) : c'.QueueKept := by
  obtain ⟨hmanager, hencrypted, hqueued⟩ := h
  obtain ⟨hsized, hfifo⟩ := hc
  constructor
  · rw [hmanager]
    exact hsized
  · unfold Fifo at hfifo ⊢
    rw [hmanager, hencrypted, hqueued, hfifo]

theorem Queued.fifo (h : c.Queued queued) : c.Fifo queued := h.queued_eq ▸ h.kept.fifo

theorem EncryptKept.queued_of (h : EncryptKept c c') (hc : c.Queued queued) : c'.Queued queued :=
  ⟨h.queueKept hc.kept, h.queued.trans hc.queued_eq⟩

/-! ## One turn of the loop -/

theorem QueueKept.takeEncrypted (h : c.QueueKept) {n : ℤ} (h0 : 0 ≤ n)
    (hn : n ≤ c.encryptBufferManager.currentBufferPtr) : (c.takeEncrypted n).QueueKept := by
  obtain ⟨hsized, hfifo⟩ := h
  refine ⟨hsized.consume h0 hn, ?_⟩
  unfold Fifo at hfifo ⊢
  show (c.streams.encrypted ++ window c.encryptBufferManager.buffer 0 n.toNat) ++
    (c.encryptBufferManager.consume n).pending = c.streams.queued
  have htaken : window c.encryptBufferManager.buffer 0 n.toNat =
      c.encryptBufferManager.pending.take n.toNat := by
    rw [BufferManager.pending, window_take _ _ (by omega)]
  rw [htaken, BufferManager.pending_consume h0 hn, List.append_assoc, List.take_append_drop,
    hfifo]

/-- **One turn** keeps the queue. -/
theorem Queued.afterWrite (h : c.Queued queued) {w : WriteCall}
    (hle : w.ret ≤ c.encryptBufferManager.currentBufferPtr) : (c.afterWrite w).Queued queued := by
  unfold SslConn.afterWrite
  split
  · have htaken : (c.takeEncrypted w.ret).Queued queued :=
      ⟨h.kept.takeEncrypted (by omega) hle, h.queued_eq⟩
    exact (drainWbio_encrypt _ w.wbio).queued_of htaken
  · exact h

/-! ## All states of one `encrypt_io_req` -/

/-- The states the loop goes through: before each `SSL_write`, after each
consumption, and the one it leaves in. -/
def loopStates : List WriteCall → SslConn → List SslConn
  | [], c => [c]
  | w :: ws, c =>
      if 0 < c.encryptBufferManager.currentBufferPtr then
        c :: (if 0 < w.ret then [c.takeEncrypted w.ret] else []) ++
          match w.code with
          | some _ => [c.afterWrite w]
          | none => loopStates ws (c.afterWrite w)
      else [c]

/-- The states of `zxy_client_encrypt_io_req` and `zxy_backend_encrypt_io_req`. -/
def encryptStates (side : Side) (c : SslConn) (env : WriteEnv) : List SslConn :=
  c :: if env.initFinished then loopStates env.writes c
    else
      match side with
      | .client => []
      | .backend =>
          (c.handshake env.handshake).1 ::
            match (c.handshake env.handshake).2 with
            | some _ => []
            | none => loopStates env.writes (c.handshake env.handshake).1

theorem loopStates_getLast {ws : List WriteCall} {code : ℤ}
    (h : encryptLoop ws c = .ok (c', code)) : (loopStates ws c).getLast? = some c' := by
  induction ws generalizing c with
  | nil =>
      unfold encryptLoop at h
      split at h
      · cases h
      · cases h
        rfl
  | cons w ws ih =>
      unfold loopStates
      by_cases hpending : 0 < c.encryptBufferManager.currentBufferPtr
      · rw [encryptLoop_turn w ws hpending] at h
        rw [if_pos hpending, List.getLast?_append]
        cases hcode : w.code with
        | some stop =>
            rw [hcode] at h
            cases h
            rfl
        | none =>
            rw [hcode] at h
            simp only [ih h, Option.some_or]
      · rw [encryptLoop_idle _ hpending] at h
        rw [if_neg hpending]
        cases h
        rfl

theorem encryptStates_getLast {env : WriteEnv} {code : ℤ}
    (h : encryptIoReq side c env = .ok (c', code)) :
    (encryptStates side c env).getLast? = some c' := by
  unfold encryptStates
  cases side with
  | client =>
      change (if (!env.initFinished) = true then .ok (c, 0) else encryptLoop env.writes c) =
        Except.ok (c', code) at h
      cases hinit : env.initFinished with
      | false =>
          rw [hinit] at h
          cases h
          rfl
      | true =>
          rw [hinit] at h
          rw [if_pos rfl, List.getLast?_cons, loopStates_getLast h]
          rfl
  | backend =>
      change backendEncryptIoReq c env = _ at h
      unfold backendEncryptIoReq at h
      cases hinit : env.initFinished with
      | true =>
          rw [hinit] at h
          rw [if_pos rfl, List.getLast?_cons, loopStates_getLast h]
          rfl
      | false =>
          simp only [hinit, Bool.not_false, if_true] at h
          rw [if_neg Bool.false_ne_true]
          rcases hshake : c.handshake env.handshake with ⟨c₁, _ | stop⟩
          · simp only [hshake] at h ⊢
            rw [List.getLast?_cons, List.getLast?_cons, loopStates_getLast h]
            rfl
          · simp only [hshake] at h ⊢
            cases h
            rfl

/-- **The loop keeps the queue** in every state it goes through. -/
theorem Queued.loopStates {ws : List WriteCall} (h : c.Queued queued)
    (hwithin : WritesWithin c.encryptBufferManager.currentBufferPtr ws) :
    ∀ s ∈ SslConn.loopStates ws c, s.Queued queued := by
  induction ws generalizing c with
  | nil =>
      intro s hs
      obtain rfl := List.mem_singleton.mp hs
      exact h
  | cons w ws ih =>
      unfold SslConn.loopStates
      by_cases hpending : 0 < c.encryptBufferManager.currentBufferPtr
      · obtain ⟨hle, hrest⟩ := hwithin hpending
        have hafter := h.afterWrite hle
        rw [if_pos hpending]
        intro s hs
        rcases List.mem_cons.mp hs with rfl | hs
        · exact h
        rcases List.mem_append.mp hs with hs | hs
        · -- the state between the consumption and the drain
          by_cases hret : 0 < w.ret
          · rw [if_pos hret] at hs
            obtain rfl := List.mem_singleton.mp hs
            exact ⟨h.kept.takeEncrypted hret.le hle, h.queued_eq⟩
          · rw [if_neg hret] at hs
            cases hs
        · cases hcode : w.code with
          | some stop =>
              rw [hcode] at hs
              obtain rfl := List.mem_singleton.mp hs
              exact hafter
          | none =>
              rw [hcode] at hs
              rw [← afterWrite_ptr] at hrest
              exact ih hafter (hrest hcode) s hs
      · rw [if_neg hpending]
        intro s hs
        obtain rfl := List.mem_singleton.mp hs
        exact h

theorem Queued.encryptStates (h : c.Queued queued) {env : WriteEnv}
    (hwithin : WritesWithin c.encryptBufferManager.currentBufferPtr env.writes) :
    ∀ s ∈ SslConn.encryptStates side c env, s.Queued queued := by
  intro s hs
  rcases List.mem_cons.mp hs with rfl | hs
  · exact h
  cases hinit : env.initFinished with
  | true =>
      rw [hinit, if_pos rfl] at hs
      exact h.loopStates hwithin s hs
  | false =>
      rw [hinit, if_neg Bool.false_ne_true] at hs
      cases side with
      | client => cases hs
      | backend =>
          have hkept := handshake_encrypt c env.handshake
          have hshaken := hkept.queued_of h
          rcases List.mem_cons.mp hs with rfl | hs
          · exact hshaken
          split at hs
          · cases hs
          · rw [← hkept.manager] at hwithin
            exact hshaken.loopStates hwithin s hs

/-! ## Runs -/

inductive EncryptEvent where
  | queue (bytes : List Byte)
  | encrypt (env : WriteEnv)

def EncryptEvent.bytes : EncryptEvent → List Byte
  | .queue bytes => bytes
  | .encrypt _ => []

def handleEncrypt (side : Side) (c : SslConn) : EncryptEvent → Except Fault SslConn
  | .queue bytes => .ok (c.queueUnencryptedBytes bytes)
  | .encrypt env => (encryptIoReq side c env).bind fun r => .ok r.1

/-- OpenSSL takes no more than it is offered. -/
def TakesWithin (c : SslConn) : EncryptEvent → Prop
  | .queue _ => True
  | .encrypt env => WritesWithin c.encryptBufferManager.currentBufferPtr env.writes

/-- The queue holds what was queued, in order, and does so in every state of a call
of `encrypt_io_req`, of which the last is the one that it returns. -/
def FifoThroughout (side : Side) (queued : List Byte) (c : SslConn) : Prop :=
  c.Fifo queued ∧ ∀ env : WriteEnv, c.TakesWithin (.encrypt env) →
    (∀ s ∈ encryptStates side c env, s.Fifo queued) ∧
      ∀ c' code, encryptIoReq side c env = .ok (c', code) →
        (encryptStates side c env).getLast? = some c'

theorem Queued.fifoThroughout (h : c.Queued queued) : c.FifoThroughout side queued := by
  refine ⟨h.fifo, fun env hwithin => ⟨fun s hs => ?_, fun c' code => encryptStates_getLast⟩⟩
  exact (h.encryptStates hwithin s hs).fifo

theorem QueueKept.queueUnencryptedBytes (h : c.QueueKept) (bytes : List Byte) :
    (c.queueUnencryptedBytes bytes).QueueKept := by
  obtain ⟨hsized, hfifo⟩ := h
  refine ⟨hsized.queueBytes bytes, ?_⟩
  unfold Fifo at hfifo ⊢
  show c.streams.encrypted ++ (c.encryptBufferManager.queueBytes bytes).pending =
    c.streams.queued ++ bytes
  rw [BufferManager.pending_queueBytes hsized, ← List.append_assoc, hfifo]

/-- **One event** keeps the queue, and adds what it queues. -/
theorem queued_handleEncrypt {e : EncryptEvent} (h : c.Queued queued) (hwithin : c.TakesWithin e)
    (hstep : c.handleEncrypt side e = .ok c') : c'.Queued (queued ++ e.bytes) := by
  cases e with
  | queue bytes =>
      cases hstep
      exact ⟨h.kept.queueUnencryptedBytes bytes, congrArg (· ++ bytes) h.queued_eq⟩
  | encrypt env =>
      obtain ⟨⟨c₁, code⟩, hcall, hres⟩ := bind_ok hstep
      cases hres
      rw [EncryptEvent.bytes, List.append_nil]
      exact h.encryptStates hwithin _ (List.mem_of_getLast? (encryptStates_getLast hcall))

/-- **The plaintext queue.** From a new SSL connection, through any run of
queueing and of `encrypt_io_req`, in every state in between, what OpenSSL has
taken followed by what is pending is what the run has queued. -/
theorem fifo_run (side : Side) (heap : ℕ → Mem Byte) (fd : ℤ) (es : List EncryptEvent)
    (h : EachStep (handleEncrypt side) TakesWithin (makeSslConn heap fd) es) :
    Always (recorded (handleEncrypt side) fun _ e => e.bytes)
      (fun x => x.1.FifoThroughout side x.2) (makeSslConn heap fd, []) es := by
  have hrun : Always (recorded (handleEncrypt side) fun _ e => e.bytes)
      (fun x => x.1.Queued x.2) (makeSslConn heap fd, []) es := by
    refine always_of_eachStep ?_ ⟨⟨newBufferManager_wellSized (heap 0), rfl⟩, rfl⟩
      (eachStep_recorded_iff.mpr h)
    rintro ⟨c, queued⟩ e ⟨c', queued'⟩ hc hwithin hstep
    obtain ⟨hcall, rfl⟩ := recorded_ok_iff.mp hstep
    exact queued_handleEncrypt hc hwithin hcall
  exact hrun.mono fun x hx => hx.fifoThroughout

/-- OpenSSL takes one of two bytes, and then wants to read. -/
def partialWrite : WriteEnv :=
  ⟨true, ⟨.none, .empty, true⟩, [⟨1, .none, .one (.single 23)⟩, ⟨-1, .syscall, .empty⟩],
    .wouldBlock⟩

/-- Two bytes are queued, and one of them is taken. -/
theorem fifo_run_partialWrite :
    Always (recorded (handleEncrypt .client) fun _ e => e.bytes)
      (fun x => x.1.FifoThroughout .client x.2) (makeSslConn (fun _ _ => 0) 4, [])
      [.queue [65, 66], .encrypt partialWrite] := by
  apply fifo_run
  rintro c ⟨⟩
  refine ⟨trivial, fun c' hc' => ⟨?_, trivial⟩⟩
  intro _
  refine ⟨by decide, fun _ _ => ⟨by decide, ?_⟩⟩
  rintro ⟨⟩

end SslConn
end Zroxy
