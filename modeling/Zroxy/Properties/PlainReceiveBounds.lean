import Zroxy.Events.PlainCallbacks
import Zroxy.Properties.PlainBufferBounds

/-!
# Where a plain connection receives

`zxy_on_client_plain_read_event` and `zxy_on_backend_plain_read_event` offer
`recv` a region of `READ_BUF_SIZE` bytes behind the pending ones, and grow the
buffer before that when its last byte is set. What is pending then is whatever
earlier events left there, so the region may start anywhere.

`receives_inside_run_iff`: along a run, every region offered lies inside the
buffer exactly when each read finds the last byte set or `READ_BUF_SIZE` bytes
free, which is what `zxy_can_write_nbytes_to_buffer` would have told.
-/

namespace Zroxy

open OffsetMemory Runs

namespace BufferManager

/-- Every region offered to `recv` so far lay inside the size recorded at the
time. -/
def ReceivesInside (b : BufferManager) : Prop := b.EachAccess .receive Access.Inside

variable {b : BufferManager}

/-- The next region offered to `recv` will lie inside the buffer: the growth is
due, or it is not needed. -/
def RoomToReceive (b : BufferManager) : Prop :=
  b.shouldResizeBuffer = true ∨ b.canWriteNbytesToBuffer readBufSize = true

theorem WellSized.belowMax (h : b.WellSized) : b.BelowMax := ⟨h.ptr_le, h.max_ge⟩

/-- The region behind the pending bytes of a buffer that has grown if it was
full. -/
theorem WellSized.receivesInside_iff (h : b.WellSized) (hb : b.ReceivesInside) :
    (b.growIfFull.touch .receive b.growIfFull.currentBufferPtr readBufSize).ReceivesInside ↔
      b.RoomToReceive := by
  have hgrown : b.growIfFull.ReceivesInside :=
    (eachAccess_growIfFull (by rintro ⟨⟩) (by rintro ⟨⟩)).mpr hb
  unfold RoomToReceive
  rw [ReceivesInside, eachAccess_touch, ← fits_growIfFull_iff h.belowMax (le_refl _)]
  constructor
  · rintro ⟨-, hnew⟩
    exact (hnew rfl).2
  · intro hfits
    exact ⟨hgrown, fun _ => ⟨h.growIfFull.ptr_nonneg, hfits⟩⟩

end BufferManager

/-! ## Runs of a plain connection -/

/-- What happens to the buffer of a plain connection: a read event, and what
becomes of the pending bytes. A peer that sends zero-fills the bytes that it
sent, and `read_nbytes` takes bytes off the buffer. -/
inductive PlainEvent where
  | read (env : ReadEnv)
  | cleared (nbytes : ℕ)
  | readNbytes (nbytes : ℕ)

namespace PlainConn

/-- The callback for an event; a consumption is one of pending bytes. -/
def handlePlainEvent (c : PlainConn) : PlainEvent → Except Fault PlainConn
  | .read env => .ok (c.onReadEvent env).1
  | .cleared n =>
      .ok { c with bufferManager := { c.bufferManager with
        buffer := fill c.bufferManager.buffer 0 (min n c.bufferManager.currentBufferPtr) 0 } }
  | .readNbytes n => .ok (c.readNbytesFromBuffer (min n c.bufferManager.currentBufferPtr))

/-- Every `recv` so far was given a region inside the buffer. -/
def ReceivesInside (c : PlainConn) : Prop := c.bufferManager.ReceivesInside

/-- A read event finds room. -/
def FindsRoom (c : PlainConn) : PlainEvent → Prop
  | .read _ => c.bufferManager.RoomToReceive
  | .cleared _ => True
  | .readNbytes _ => True

variable {c c' : PlainConn} {e : PlainEvent}

/-- The record after a read event is the one after the growth and the region
offered, whatever `recv` delivers. -/
theorem onReadEvent_accesses (c : PlainConn) (env : ReadEnv) :
    (c.onReadEvent env).1.bufferManager.accesses =
      (c.bufferManager.growIfFull.touch .receive c.bufferManager.growIfFull.currentBufferPtr
        readBufSize).accesses := by
  unfold onReadEvent
  cases env.recv <;> rfl

theorem wellSized_onReadEvent (h : c.bufferManager.WellSized)
    (hroom : c.bufferManager.RoomToReceive) (env : ReadEnv) :
    (c.onReadEvent env).1.bufferManager.WellSized := by
  have hgrown := h.growIfFull
  have hfits := (BufferManager.fits_growIfFull_iff h.belowMax (le_refl _)).mpr hroom
  unfold onReadEvent
  cases env.recv with
  | received k =>
      have hlen : (k.bytes.length : ℤ) ≤ readBufSize := k.length_le_int
      have hroom' : c.bufferManager.growIfFull.currentBufferPtr + k.bytes.length ≤
          c.bufferManager.growIfFull.maxSizeOfBuffer := by omega
      obtain ⟨hptr, hle, hmax⟩ := hgrown.appendBytes hroom'
      exact ⟨hptr, hle, hmax⟩
  | endOfStream => exact ⟨hgrown.1, hgrown.2, hgrown.3⟩
  | wouldBlock => exact ⟨hgrown.1, hgrown.2, hgrown.3⟩
  | error => exact ⟨hgrown.1, hgrown.2, hgrown.3⟩

/-- **One event.** -/
theorem receivesInside_handlePlainEvent_iff (h : c.bufferManager.WellSized)
    (hc : c.ReceivesInside) (hstep : c.handlePlainEvent e = .ok c') :
    c'.ReceivesInside ↔ c.FindsRoom e := by
  cases e with
  | read env =>
      cases hstep
      unfold ReceivesInside BufferManager.ReceivesInside BufferManager.EachAccess
      rw [onReadEvent_accesses]
      exact h.receivesInside_iff hc
  | cleared n =>
      cases hstep
      exact iff_of_true hc trivial
  | readNbytes n =>
      cases hstep
      refine iff_of_true ?_ trivial
      unfold readNbytesFromBuffer
      split <;> exact hc

theorem wellSized_handlePlainEvent (h : c.bufferManager.WellSized) (hroom : c.FindsRoom e)
    (hstep : c.handlePlainEvent e = .ok c') : c'.bufferManager.WellSized := by
  cases e with
  | read env =>
      cases hstep
      exact wellSized_onReadEvent h hroom env
  | cleared n =>
      cases hstep
      exact ⟨h.1, h.2, h.3⟩
  | readNbytes n =>
      cases hstep
      unfold readNbytesFromBuffer
      split
      · exact h
      · exact h.consume (by omega) (min_le_right _ _)

/-- **Where a plain connection receives, exactly.** From a new plain connection,
every `recv` of a run is given a region inside the buffer if and only if each
read event finds the last byte set or `READ_BUF_SIZE` bytes free. -/
theorem receives_inside_run_iff (heap : Mem Byte) (fd : ℤ) (es : List PlainEvent) :
    Always handlePlainEvent ReceivesInside (makePlainConn heap fd) es ↔
      EachStep handlePlainEvent FindsRoom (makePlainConn heap fd) es := by
  refine always_iff_eachStep (I := fun c => c.bufferManager.WellSized) ?_ ?_ ?_ ?_ es
  · intro c e c' h hc hstep
    exact receivesInside_handlePlainEvent_iff h hc hstep
  · intro c e c' h hc hstep hc'
    have hroom := (receivesInside_handlePlainEvent_iff h hc hstep).mp hc'
    exact wellSized_handlePlainEvent h hroom hstep
  · exact newBufferManager_wellSized heap
  · rintro a ⟨⟩

/-- A `recv` of two bytes. -/
def twoByteRead : PlainEvent :=
  .read
    { recv := .received ⟨[65, 66], Nat.succ_pos _, Nat.le_of_ble_eq_true rfl⟩
      rounds := fun _ =>
        { bioWrite := 0
          initFinished := true
          handshake := ⟨.none, .empty, true⟩
          reads := ⟨[], .none, .empty⟩ } }

/-- Two bytes are left pending, and the next region runs from offset 2 to 4098,
in a buffer of 4097 bytes whose last one is NUL. -/
theorem backlog_overruns :
    ¬ ∀ (heap : Mem Byte) (fd : ℤ) (es : List PlainEvent),
      Always handlePlainEvent ReceivesInside (makePlainConn heap fd) es := by
  intro h
  have hrun := h (fun _ => 0) 4 [twoByteRead, twoByteRead]
  set c := makePlainConn (fun _ => 0) 4
  have hc : c.bufferManager.WellSized := newBufferManager_wellSized _
  have hnew : c.ReceivesInside := by rintro a ⟨⟩
  have hfirst := hrun.2 _ rfl
  -- the first read finds room, the second does not
  have hroom := (receivesInside_handlePlainEvent_iff (e := twoByteRead) hc hnew rfl).mp hfirst.head
  have hsized := wellSized_handlePlainEvent hc hroom rfl
  have hroom' := (receivesInside_handlePlainEvent_iff (e := twoByteRead) hsized hfirst.head
    rfl).mp (hfirst.2 _ rfl).head
  rcases hroom' with hfull | hfits
  · exact absurd hfull (by decide)
  · have hle := BufferManager.canWriteNbytesToBuffer_iff.mp hfits
    exact absurd hle (by decide)

end PlainConn
end Zroxy
