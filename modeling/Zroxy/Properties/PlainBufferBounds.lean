import Zroxy.Events.SslEffects

/-!
# The plain buffer of an SSL client

`zxy_client_proccess_ssl_bytes` makes room for a decrypted chunk when the
sentinel byte at the end of the buffer is set, and only then; its sibling on the
backend side also asks whether the chunk fits. Here every `memcpy` into the
plain buffer is compared with the recorded size, over any run of read events and
consumptions.

`copies_fit_run_iff`: all of them fit exactly when, before each chunk is copied,
the sentinel is set or the chunk fits, which is the backend's test.
-/

namespace Zroxy

open OffsetMemory Runs

namespace BufferManager

/-- Every copy so far ended inside the size recorded at the time. -/
def CopiesFit (b : BufferManager) : Prop :=
  ∀ a ∈ b.accesses, a.kind = .copy → a.Fits

/-- The counter is inside the recorded size, which is at least the one a manager
is created with. Nothing is asked of the lower end. -/
structure BelowMax (b : BufferManager) : Prop where
  ptr_le : b.currentBufferPtr ≤ b.maxSizeOfBuffer
  max_ge : (readBufSize : ℤ) + 1 ≤ b.maxSizeOfBuffer

theorem copiesFit_growIfFull {b : BufferManager} :
    b.growIfFull.CopiesFit ↔ b.CopiesFit :=
  eachAccess_growIfFull (P := Access.Fits) (by rintro ⟨⟩) (by rintro ⟨⟩)

theorem copiesFit_appendBytes {b : BufferManager} (xs : List Byte) :
    (b.appendBytes xs).CopiesFit ↔
      b.CopiesFit ∧ b.currentBufferPtr + xs.length ≤ b.maxSizeOfBuffer := by
  have htouch := @eachAccess_touch b .copy .copy Access.Fits b.currentBufferPtr xs.length
  rw [forall_prop_of_true rfl] at htouch
  exact htouch

/-- Growing makes room for what one call delivers exactly when the sentinel is
set or there is room already: one doubling is always enough. -/
theorem fits_growIfFull_iff {b : BufferManager} (h : b.BelowMax) {n : ℤ}
    (hlen : n ≤ readBufSize) :
    b.growIfFull.currentBufferPtr + n ≤ b.growIfFull.maxSizeOfBuffer ↔
      b.shouldResizeBuffer = true ∨ b.canWriteNbytesToBuffer n = true := by
  obtain ⟨hptr, hmax⟩ := h
  rw [growIfFull_ptr, canWriteNbytesToBuffer_iff]
  unfold growIfFull
  cases hfull : b.shouldResizeBuffer with
  | true =>
      simp only [if_true, true_or, iff_true, doubleBufferSize_max, probed_max]
      omega
  | false => simp

theorem BelowMax.growIfFull {b : BufferManager} (h : b.BelowMax) : b.growIfFull.BelowMax := by
  obtain ⟨hptr, hmax⟩ := h
  have h1 : (1 : ℤ) ≤ readBufSize := by decide
  unfold BufferManager.growIfFull
  split
  · constructor <;> simp only [doubleBufferSize_ptr, doubleBufferSize_max, probed_ptr,
      probed_max] <;> omega
  · exact ⟨hptr, hmax⟩

/-- Before each chunk of a list is copied, the sentinel is set or the chunk
fits. -/
def RoomFor : BufferManager → List Chunk → Prop
  | _, [] => True
  | b, k :: ks =>
      (b.shouldResizeBuffer = true ∨ b.canWriteNbytesToBuffer k.length = true) ∧
        RoomFor (b.growIfFull.appendBytes k.bytes) ks

theorem copiesFit_of_copyChunks {ks : List Chunk} {b : BufferManager}
    (h : (copyChunks SslConn.clientPlainGrowth b ks).CopiesFit) : b.CopiesFit := by
  induction ks generalizing b with
  | nil => exact h
  | cons k ks ih =>
      exact copiesFit_growIfFull.mp ((copiesFit_appendBytes k.bytes).mp (ih h)).1

/-- **The copies of one event** fit exactly when each finds the sentinel set or
enough room. -/
theorem copiesFit_copyChunks_iff {ks : List Chunk} {b : BufferManager} (hb : b.BelowMax)
    (h : b.CopiesFit) :
    (copyChunks SslConn.clientPlainGrowth b ks).CopiesFit ↔ b.RoomFor ks := by
  induction ks generalizing b with
  | nil => exact iff_of_true h trivial
  | cons k ks ih =>
      have hcopy : (b.growIfFull.appendBytes k.bytes).CopiesFit ↔
          b.growIfFull.currentBufferPtr + k.length ≤ b.growIfFull.maxSizeOfBuffer := by
        rw [copiesFit_appendBytes, copiesFit_growIfFull]
        exact and_iff_right h
      rw [copyChunks_cons, RoomFor, ← fits_growIfFull_iff hb k.length_le_int]
      by_cases hfit : b.growIfFull.currentBufferPtr + k.length ≤ b.growIfFull.maxSizeOfBuffer
      · rw [and_iff_right hfit]
        exact ih ⟨hfit, hb.growIfFull.max_ge⟩ (hcopy.mpr hfit)
      · refine iff_of_false ?_ (fun hroom => hfit hroom.1)
        exact fun hall => hfit (hcopy.mp (copiesFit_of_copyChunks hall))

theorem BelowMax.copyChunks {ks : List Chunk} {b : BufferManager} (hb : b.BelowMax)
    (h : b.RoomFor ks) : (BufferManager.copyChunks SslConn.clientPlainGrowth b ks).BelowMax := by
  induction ks generalizing b with
  | nil => exact hb
  | cons k ks ih =>
      have hfit := (fits_growIfFull_iff hb k.length_le_int).mpr h.1
      exact ih ⟨hfit, hb.growIfFull.max_ge⟩ h.2

end BufferManager

/-! ## Runs of a client -/

inductive PlainBufferEvent where
  | read (env : ReadEnv)
  | readNbytes (nbytes : ℤ)

namespace SslConn

def handlePlain (c : SslConn) : PlainBufferEvent → Except Fault SslConn
  | .read env => .ok (c.onClientSslReadEvent env).1
  | .readNbytes nbytes => .ok (c.readNbytesFromBuffer nbytes)

/-- Every `memcpy` into the plain buffer so far stayed inside it. -/
def PlainCopiesFit (c : SslConn) : Prop := c.plainBufferManager.CopiesFit

/-- Every chunk of the event is copied where the backend would copy it too. -/
def FindsRoom (c : SslConn) : PlainBufferEvent → Prop
  | .read env => c.plainBufferManager.RoomFor env.plain
  | .readNbytes _ => True

/-- **One event.** -/
theorem plainCopiesFit_handlePlain_iff {c c' : SslConn} {e : PlainBufferEvent}
    (hb : c.plainBufferManager.BelowMax) (hc : c.PlainCopiesFit)
    (h : c.handlePlain e = .ok c') : c'.PlainCopiesFit ↔ c.FindsRoom e := by
  cases e with
  | read env =>
      cases h
      have hmoved := onReadEvent_moved clientPlainGrowth c env
      unfold PlainCopiesFit onClientSslReadEvent
      rw [hmoved.plain]
      exact BufferManager.copiesFit_copyChunks_iff hb hc
  | readNbytes n =>
      cases h
      refine iff_of_true ?_ trivial
      unfold readNbytesFromBuffer
      split
      · exact hc
      · exact hc

theorem belowMax_handlePlain {c c' : SslConn} {e : PlainBufferEvent}
    (hb : c.plainBufferManager.BelowMax) (h : c.handlePlain e = .ok c')
    (hroom : c.FindsRoom e) : c'.plainBufferManager.BelowMax := by
  cases e with
  | read env =>
      cases h
      have hmoved := onReadEvent_moved clientPlainGrowth c env
      unfold onClientSslReadEvent
      rw [hmoved.plain]
      exact hb.copyChunks hroom
  | readNbytes n =>
      cases h
      obtain ⟨hptr, hmax⟩ := hb
      unfold readNbytesFromBuffer
      split
      · exact ⟨hptr, hmax⟩
      · constructor <;> simp only [BufferManager.consume_ptr, BufferManager.consume_max] <;> omega

/-- **The copies into the plain buffer, exactly.** From a new SSL client, every
copy of a run stays inside the buffer if and only if each chunk, when its turn
comes, finds the sentinel set or room enough. -/
theorem copies_fit_run_iff (heap : ℕ → Mem Byte) (fd : ℤ) (es : List PlainBufferEvent) :
    Always handlePlain PlainCopiesFit (makeSslConn heap fd) es ↔
      EachStep handlePlain FindsRoom (makeSslConn heap fd) es := by
  refine always_iff_eachStep (I := fun c => c.plainBufferManager.BelowMax) ?_ ?_ ?_ ?_ es
  · intro c e c' hb hc h
    exact plainCopiesFit_handlePlain_iff hb hc h
  · intro c e c' hb hc h hc'
    exact belowMax_handlePlain hb h ((plainCopiesFit_handlePlain_iff hb hc h).mp hc')
  · have hw := newBufferManager_wellSized (heap 3)
    exact ⟨hw.ptr_le, hw.max_ge⟩
  · rintro a ⟨⟩

/-- As much as one `SSL_read` can deliver. -/
def fullChunk : Chunk := ⟨List.replicate readBufSize 65, by simp, by simp⟩

/-- One record in two chunks: two bytes, and 4096 more. -/
def twoChunkRead : PlainBufferEvent :=
  .read
    { recv := .received (.single 23)
      rounds := fun _ =>
        { bioWrite := 1
          initFinished := true
          handshake := ⟨.none, .empty, true⟩
          reads := ⟨[⟨[65, 66], by decide, by decide⟩, fullChunk], .wantRead, .empty⟩ } }

/-- The second chunk starts at offset 2 of 4097 bytes, whose last one is still
NUL, and runs 4096 bytes from there. -/
theorem second_chunk_overruns :
    ¬ ∀ (heap : ℕ → Mem Byte) (fd : ℤ) (es : List PlainBufferEvent),
      Always handlePlain PlainCopiesFit (makeSslConn heap fd) es := by
  intro h
  have hrun := h (fun _ _ => 0) 4 [twoChunkRead]
  have hb : (makeSslConn (fun _ _ => 0) 4).plainBufferManager.BelowMax := by
    constructor <;> decide
  have hroom : (makeSslConn (fun _ _ => 0) 4).FindsRoom twoChunkRead :=
    (plainCopiesFit_handlePlain_iff hb (by intro a ha; cases ha) rfl).mp (hrun.2 _ rfl).head
  -- neither the sentinel nor the room for the second chunk is there
  rcases hroom.2.1 with hfull | hfits
  · exact absurd hfull (by decide)
  · have hle := BufferManager.canWriteNbytesToBuffer_iff.mp hfits
    rw [show fullChunk.length = readBufSize from List.length_replicate] at hle
    exact absurd hle (by decide)

end SslConn
end Zroxy
