import Zroxy.Properties.PlainBufferBounds

/-!
# The plain buffer of an SSL backend

Before a decrypted chunk is copied, `zxy_backend_proccess_ssl_bytes` doubles the
plain buffer at most once, where the queue functions double in a loop. Once is
enough: the recorded size never falls below `READ_BUF_SIZE + 1`, so its doubling
makes room for a whole chunk, however full the buffer is.

`backend_growth_run` says so for every copy of every event of a run.
-/

namespace Zroxy

open OffsetMemory Runs

namespace BufferManager

/-- The copy of a chunk into the plain buffer of a backend: the buffer is
well sized before and behind it, one growth makes room, and the bytes end up
behind the pending ones. -/
structure CopiedBehind (b : BufferManager) (k : Chunk) : Prop where
  sized : b.WellSized
  fits : b.currentBufferPtr + k.length ≤
    (SslConn.backendPlainGrowth b k.length).maxSizeOfBuffer
  sized_after : ((SslConn.backendPlainGrowth b k.length).appendBytes k.bytes).WellSized
  pending_after : ((SslConn.backendPlainGrowth b k.length).appendBytes k.bytes).pending =
    b.pending ++ k.bytes

theorem WellSized.copiedBehind {b : BufferManager} (h : b.WellSized) (k : Chunk) :
    b.CopiedBehind k := by
  obtain ⟨hsized, hfit, hpending⟩ := backendPlainGrowth_spec h k
  have hptr : (SslConn.backendPlainGrowth b k.length).currentBufferPtr = b.currentBufferPtr :=
    plainGrowth_ptr .backend b k.length
  refine ⟨h, hptr ▸ hfit, hsized.appendBytes hfit, ?_⟩
  rw [pending_appendBytes hsized.ptr_nonneg, hpending]

theorem copiesFit_backendPlainGrowth {b : BufferManager} (n : ℕ) :
    (SslConn.backendPlainGrowth b n).CopiesFit ↔ b.CopiesFit := by
  have hprobed : b.probed.CopiesFit ↔ b.CopiesFit :=
    eachAccess_probed (P := Access.Fits) (by rintro ⟨⟩)
  unfold SslConn.backendPlainGrowth
  split
  · exact (eachAccess_doubleBufferSize (P := Access.Fits) (by rintro ⟨⟩)).trans hprobed
  · exact hprobed

theorem copiesFit_copyChunks_backend {ks : List Chunk} {b : BufferManager} (hb : b.WellSized)
    (h : b.CopiesFit) : (copyChunks SslConn.backendPlainGrowth b ks).CopiesFit := by
  induction ks generalizing b with
  | nil => exact h
  | cons k ks ih =>
      obtain ⟨-, hfit, -⟩ := backendPlainGrowth_spec hb k
      apply ih (hb.copiedBehind k).sized_after
      exact (copiesFit_appendBytes k.bytes).mpr ⟨(copiesFit_backendPlainGrowth _).mpr h, hfit⟩

end BufferManager

namespace SslConn

def handleBackendPlain (c : SslConn) : PlainBufferEvent → Except Fault SslConn
  | .read env => .ok (c.onBackendSslReadEvent env).1
  | .readNbytes nbytes => .ok (c.readNbytesFromBuffer nbytes)

/-- No more is consumed than is pending. -/
def ConsumesPending (c : SslConn) : PlainBufferEvent → Prop
  | .read _ => True
  | .readNbytes nbytes => nbytes ≤ c.plainBufferManager.currentBufferPtr

/-- Sizes and copies are right so far, and each copy of the next read event,
whichever it is, is made behind the pending bytes of a buffer with room for it. -/
structure RoomThroughout (c : SslConn) : Prop where
  sized : c.plainBufferManager.WellSized
  copies_fit : c.PlainCopiesFit
  next_copies : ∀ env : ReadEnv,
    (c.onBackendSslReadEvent env).1.plainBufferManager =
        .copyChunks backendPlainGrowth c.plainBufferManager env.plain ∧
      ∀ ks k ls, env.plain = ks ++ k :: ls →
        (BufferManager.copyChunks backendPlainGrowth c.plainBufferManager ks).CopiedBehind k

theorem roomThroughout_of_sized {c : SslConn} (h : c.plainBufferManager.WellSized)
    (hfit : c.PlainCopiesFit) : c.RoomThroughout := by
  refine ⟨h, hfit, ?_⟩
  intro env
  refine ⟨(onReadEvent_moved backendPlainGrowth c env).plain, ?_⟩
  rintro ks k ls -
  exact (BufferManager.copyChunks_backend h).1.copiedBehind k

/-- **One event.** -/
theorem roomThroughout_handleBackendPlain {c c' : SslConn} {e : PlainBufferEvent}
    (h : c.RoomThroughout) (hle : c.ConsumesPending e) (hstep : c.handleBackendPlain e = .ok c') :
    c'.RoomThroughout := by
  obtain ⟨hsized, hfit, -⟩ := h
  cases e with
  | read env =>
      cases hstep
      have hplain := (onReadEvent_moved backendPlainGrowth c env).plain
      apply roomThroughout_of_sized
      · change ((c.onReadEvent backendPlainGrowth env).1.plainBufferManager).WellSized
        rw [hplain]
        exact (BufferManager.copyChunks_backend hsized).1
      · change ((c.onReadEvent backendPlainGrowth env).1.plainBufferManager).CopiesFit
        rw [hplain]
        exact BufferManager.copiesFit_copyChunks_backend hsized hfit
  | readNbytes n =>
      cases hstep
      unfold readNbytesFromBuffer
      split
      · exact roomThroughout_of_sized hsized hfit
      · apply roomThroughout_of_sized
        · exact hsized.consume (by omega) hle
        · exact hfit

/-- **One doubling is always enough.** From a new SSL backend, through any run
of read events and of consumptions of pending bytes, the plain buffer keeps its
sizes, and every copy into it is made behind the pending bytes and inside the
recorded size. -/
theorem backend_growth_run (heap : ℕ → Mem Byte) (fd : ℤ) (es : List PlainBufferEvent)
    (h : EachStep handleBackendPlain ConsumesPending (makeSslConn heap fd) es) :
    Always handleBackendPlain RoomThroughout (makeSslConn heap fd) es := by
  refine always_of_eachStep ?_ ?_ h
  · intro c e c' hroom hle hstep
    exact roomThroughout_handleBackendPlain hroom hle hstep
  · apply roomThroughout_of_sized (newBufferManager_wellSized (heap 3))
    rintro a ⟨⟩

def twoByteRead : PlainBufferEvent :=
  .read
    { recv := .received (.single 23)
      rounds := fun _ =>
        { bioWrite := 1
          initFinished := true
          handshake := ⟨.none, .empty, true⟩
          reads := ⟨[.single 65, .single 66], .wantRead, .empty⟩ } }

/-- Both bytes are decrypted, and one of them is consumed. -/
theorem backend_growth_run_twoBytes :
    Always handleBackendPlain RoomThroughout (makeSslConn (fun _ _ => 0) 5)
      [twoByteRead, .readNbytes 1] := by
  apply backend_growth_run
  rintro c ⟨⟩
  refine ⟨trivial, ?_⟩
  rintro c' ⟨⟩
  refine ⟨?_, trivial⟩
  unfold ConsumesPending
  decide

end SslConn
end Zroxy
