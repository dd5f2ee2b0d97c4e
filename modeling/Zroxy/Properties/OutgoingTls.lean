import Zroxy.Events.SslEffects

/-!
# The outgoing TLS stream

The peer of an SSL connection sees what `send` has accepted. Together with what
is pending in the writing buffer that should be what OpenSSL has produced, byte
for byte, in every state between two events (`StreamIntact`).

The write callbacks look at the result of `send` only after they have moved the
buffer and the counter by it. A failed send is a negative number, so it moves
them the wrong way, and `stream_run_iff` says that nothing else goes wrong: the
stream is intact along a run exactly when no send fails while ciphertext is due.
-/

namespace Zroxy

open OffsetMemory Runs

inductive SslEvent where
  | read (env : ReadEnv)
  | write (req : WriteIoReq) (env : WriteEnv)

namespace SslConn

def handle (side : Side) (c : SslConn) : SslEvent → Except Fault SslConn
  | .read env =>
      match side with
      | .client => .ok (c.onClientSslReadEvent env).1
      | .backend => .ok (c.onBackendSslReadEvent env).1
  | .write req env =>
      match side with
      | .client => (c.onClientSslWriteEvent req env).bind fun r => .ok r.1
      | .backend => (c.onBackendSslWriteEvent req env).bind fun r => .ok r.1

/-- What was sent and what is pending make up what was drained from OpenSSL. -/
def StreamIntact (c : SslConn) : Prop :=
  c.streams.sent ++ c.writingBufferManager.pending = c.streams.drained

/-- The event does not send ciphertext in vain. -/
def SendsDue (side : Side) (c : SslConn) : SslEvent → Prop
  | .read _ => True
  | .write req env => c.CiphertextDue side env req.bytes.length → env.send.failed = false

/-! ## One event -/

theorem handle_read_moved {side : Side} {c c' : SslConn} {env : ReadEnv}
    (h : c.handle side (.read env) = .ok c') :
    ∃ grow, Moved grow c c' [.recv] env.plain env.drains := by
  cases side with
  | client =>
      cases h
      exact ⟨clientPlainGrowth, onReadEvent_moved _ c env⟩
  | backend =>
      cases h
      exact ⟨backendPlainGrowth, onReadEvent_moved _ c env⟩

/-- A write event, on either side, is the common body on a request of the same
size: the rewriting changes bytes, not their number. -/
theorem handle_write_cases {side : Side} {c c' : SslConn} {req : WriteIoReq} {env : WriteEnv}
    (h : c.handle side (.write req env) = .ok c') :
    ∃ req' code, req'.bytes.length = req.bytes.length ∧
      c.onWriteEvent (encryptIoReq side) req' env = .ok (c', code) := by
  cases side with
  | client =>
      obtain ⟨r, hr, hc⟩ := bind_ok h
      obtain ⟨⟨c₁, code⟩, hbody, hres⟩ := bind_ok hr
      cases hres
      cases hc
      exact ⟨req, code, rfl, hbody⟩
  | backend =>
      obtain ⟨r, hr, hc⟩ := bind_ok h
      obtain ⟨req', hrewrite, hr⟩ := bind_ok hr
      obtain ⟨⟨c₁, code⟩, hbody, hres⟩ := bind_ok hr
      cases hres
      cases hc
      refine ⟨req', code, ?_, hbody⟩
      simp [WriteIoReq.bytes, rewriteHost_sendNbytes hrewrite]

theorem Moved.streamIntact {c c' : SslConn} {grow : PlainGrowth} {ops : List SysOp}
    {ps ds : List Chunk} (h : Moved grow c c' ops ps ds)
    (hw : c.writingBufferManager.WellSized) (hc : c.StreamIntact) : c'.StreamIntact := by
  unfold StreamIntact at hc ⊢
  rw [h.sent, h.writing, h.drained, BufferManager.pending_queueChunks hw, ← List.append_assoc, hc]

theorem Moved.wellSized {c c' : SslConn} {grow : PlainGrowth} {ops : List SysOp}
    {ps ds : List Chunk} (h : Moved grow c c' ops ps ds)
    (hw : c.writingBufferManager.WellSized) : c'.writingBufferManager.WellSized := by
  rw [h.writing]
  exact hw.queueChunks ds

theorem sendPending_streamIntact_iff {c : SslConn} (hw : c.writingBufferManager.WellSized)
    (hc : c.StreamIntact) (send : SendResult) :
    (c.sendPending send).1.StreamIntact ↔ send.failed = false := by
  unfold StreamIntact at hc ⊢
  rw [sendPending_drained]
  cases hsend : send.failed with
  | false =>
      obtain ⟨n, rfl⟩ : ∃ n, send = .room n := by
        cases send with
        | room n => exact ⟨n, rfl⟩
        | wouldBlock => cases hsend
        | error => cases hsend
      exact iff_of_true ((sent_pending_room hw n).trans hc) rfl
  | true =>
      obtain ⟨hsent, hlonger⟩ := sendPending_failed hw.ptr_nonneg hsend
      refine iff_of_false ?_ (by simp)
      intro hbroken
      have hlen := congrArg List.length (hbroken.trans hc.symm)
      rw [hsent, List.length_append, List.length_append] at hlen
      omega

/-- **One event** keeps the stream intact exactly when it does not send due
ciphertext in vain. -/
theorem streamIntact_handle_iff {side : Side} {c c' : SslConn} {e : SslEvent}
    (hw : c.writingBufferManager.WellSized) (hc : c.StreamIntact)
    (h : c.handle side e = .ok c') : c'.StreamIntact ↔ c.SendsDue side e := by
  cases e with
  | read env =>
      obtain ⟨grow, hmoved⟩ := handle_read_moved h
      exact iff_of_true (hmoved.streamIntact hw hc) trivial
  | write req env =>
      obtain ⟨req', code, hlen, hbody⟩ := handle_write_cases h
      obtain ⟨c₁, hmoved, hend⟩ := onWriteEvent_cases clientPlainGrowth hbody
      rw [hlen] at hend
      have hintact : c₁.StreamIntact := hmoved.streamIntact hw hc
      rcases hend with ⟨hnone, rfl, -⟩ | ⟨hdue, -, hflush⟩
      · exact iff_of_true hintact fun hdue => absurd hdue hnone
      · obtain rfl : c' = (c₁.sendPending env.send).1 := congrArg Prod.fst hflush
        rw [sendPending_streamIntact_iff (hmoved.wellSized hw) hintact]
        exact ⟨fun hsend _ => hsend, fun hsends => hsends hdue⟩

theorem wellSized_handle {side : Side} {c c' : SslConn} {e : SslEvent}
    (hw : c.writingBufferManager.WellSized) (hc : c.StreamIntact)
    (h : c.handle side e = .ok c') (hc' : c'.StreamIntact) :
    c'.writingBufferManager.WellSized := by
  cases e with
  | read env =>
      obtain ⟨grow, hmoved⟩ := handle_read_moved h
      exact hmoved.wellSized hw
  | write req env =>
      obtain ⟨req', code, -, hbody⟩ := handle_write_cases h
      obtain ⟨c₁, hmoved, hend⟩ := onWriteEvent_cases clientPlainGrowth hbody
      have hw₁ : c₁.writingBufferManager.WellSized := hmoved.wellSized hw
      rcases hend with ⟨-, rfl, -⟩ | ⟨-, -, hflush⟩
      · exact hw₁
      · obtain rfl : c' = (c₁.sendPending env.send).1 := congrArg Prod.fst hflush
        have hsend := (sendPending_streamIntact_iff hw₁ (hmoved.streamIntact hw hc) _).mp hc'
        cases hres : env.send with
        | room n => exact wellSized_room hw₁ n
        | wouldBlock => rw [hres] at hsend; cases hsend
        | error => rw [hres] at hsend; cases hsend

/-! ## Runs -/

/-- **The outgoing stream, exactly.** From a new connection of either side, the
stream is intact in every state of a run if and only if no `send` of the run
fails while ciphertext is due. -/
theorem stream_run_iff (side : Side) (heap : ℕ → Mem Byte) (fd : ℤ) (es : List SslEvent) :
    Always (handle side) StreamIntact (makeSslConn heap fd) es ↔
      EachStep (handle side) (SendsDue side) (makeSslConn heap fd) es := by
  refine always_iff_eachStep (I := fun c => c.writingBufferManager.WellSized) ?_ ?_ ?_ ?_ es
  · intro c e c' hw hc h
    exact streamIntact_handle_iff hw hc h
  · intro c e c' hw hc h hc'
    exact wellSized_handle hw hc h hc'
  · exact newBufferManager_wellSized (heap 1)
  · rfl

/-- A request of one byte to a client whose handshake is finished: OpenSSL takes
it and has one byte of ciphertext for it. -/
def oneByteWrite (send : SendResult) : SslEvent :=
  .write ⟨0, fun _ => 65, 1, 1⟩
    { initFinished := true
      handshake := ⟨.none, .empty, true⟩
      writes := [⟨1, .none, .one (.single 23)⟩]
      send := send }

/-- A send that would block leaves two bytes pending where one was drained. -/
theorem wouldBlock_breaks_the_stream :
    ¬ ∀ (side : Side) (heap : ℕ → Mem Byte) (fd : ℤ) (es : List SslEvent),
      Always (handle side) StreamIntact (makeSslConn heap fd) es := by
  intro h
  have hrun := h .client (fun _ _ => 0) 4 [oneByteWrite .wouldBlock]
  have hbroken := (hrun.2 _ rfl).head
  exact absurd (congrArg List.length hbroken) (by decide)

end SslConn
end Zroxy
