import Zroxy.Lib.OffsetMemory
import Zroxy.Lib.Runs

/-!
# The buffer manager (`utils/io/buffer_manager.c`)

A growable byte buffer: `buffer` is the memory seen from the manager's pointer,
`maxSizeOfBuffer` the size it records, `currentBufferPtr` the number of pending
bytes. Sizes are exact integers.

Two fields are ghosts. `allocated` is the size last asked of `calloc` or
`realloc`. `accesses` lists the runs of bytes touched so far, each with the
recorded size and the allocation at that moment; no operation reads it.

`realloc` keeps every cell of the memory: a byte that the recorded size covers
survives a growth, which is the assumption that the block is at least as large
as recorded. Whether it really is, is the question of `Sound` below.
-/

namespace Zroxy

open OffsetMemory Runs

abbrev Byte := UInt8

/-- `READ_BUF_SIZE`. -/
abbrev readBufSize : ℕ := 4096

/-- What an access does: the sentinel probe, the `memset` behind a growth, a
`memcpy` of new bytes, or the region handed to `recv`. -/
inductive AccessKind where
  | probe
  | clear
  | copy
  | receive
deriving DecidableEq, Repr

/-- A run of `length` bytes touched from `offset` on. -/
structure Access where
  kind : AccessKind
  offset : ℤ
  length : ℤ
  capacity : ℤ
  allocated : ℤ
deriving DecidableEq, Repr

namespace Access

/-- The run lies inside the allocation. -/
def InAllocation (a : Access) : Prop := 0 ≤ a.offset ∧ a.offset + a.length ≤ a.allocated

/-- The run ends inside the recorded size. -/
def Fits (a : Access) : Prop := a.offset + a.length ≤ a.capacity

/-- The run lies inside the recorded size. -/
def Inside (a : Access) : Prop := 0 ≤ a.offset ∧ a.Fits

instance (a : Access) : Decidable a.InAllocation := by unfold InAllocation; infer_instance
instance (a : Access) : Decidable a.Fits := by unfold Fits; infer_instance

end Access

/-- `zxy_buffer_manager_t`. -/
structure BufferManager where
  buffer : Mem Byte
  maxSizeOfBuffer : ℤ
  currentBufferPtr : ℤ
  allocated : ℤ
  accesses : List Access

namespace BufferManager

def touch (b : BufferManager) (kind : AccessKind) (offset length : ℤ) : BufferManager :=
  { b with accesses := b.accesses ++
      [⟨kind, offset, length, b.maxSizeOfBuffer, b.allocated⟩] }

/-! ## The operations of the source -/

/-- `zxy_malloc_buffer_manager_with_buffer_size`; `heap` is what lies around
the new block. -/
def mallocBufferManagerWithBufferSize (heap : Mem Byte) (maxBufferSize : ℤ) :
    BufferManager where
  buffer := fill heap 0 maxBufferSize 0
  maxSizeOfBuffer := maxBufferSize
  currentBufferPtr := 0
  allocated := maxBufferSize
  accesses := []

/-- `zxy_double_buffer_size`: `realloc` to `(max - 1) * 2` bytes, clear the
`max - 1` bytes from offset `max` on, record `(max - 1) * 2 + 1`. -/
def doubleBufferSize (b : BufferManager) : BufferManager :=
  let b := { b with allocated := (b.maxSizeOfBuffer - 1) * 2 }
  let b := { b.touch .clear b.maxSizeOfBuffer (b.maxSizeOfBuffer - 1) with
    buffer := fill b.buffer b.maxSizeOfBuffer (b.maxSizeOfBuffer - 1) 0 }
  { b with maxSizeOfBuffer := (b.maxSizeOfBuffer - 1) * 2 + 1 }

/-- `zxy_resize_to_prefer_buffer_size`. -/
def resizeToPreferBufferSize (b : BufferManager) (preferSize : ℤ) : BufferManager :=
  let b := { b with allocated := preferSize }
  let b :=
    if preferSize > b.maxSizeOfBuffer then
      { b.touch .clear b.maxSizeOfBuffer (preferSize - b.maxSizeOfBuffer) with
        buffer := fill b.buffer b.maxSizeOfBuffer (preferSize - b.maxSizeOfBuffer) 0 }
    else b
  if preferSize < readBufSize then { b with maxSizeOfBuffer := readBufSize }
  else { b with maxSizeOfBuffer := preferSize }

/-- `zxy_should_resize_buffer`: the sentinel byte at the end is not NUL. -/
def shouldResizeBuffer (b : BufferManager) : Bool :=
  b.buffer (b.maxSizeOfBuffer - 1) != 0

/-- The read `zxy_should_resize_buffer` makes, on the record. -/
def probed (b : BufferManager) : BufferManager :=
  b.touch .probe (b.maxSizeOfBuffer - 1) 1

/-- `zxy_can_write_nbytes_to_buffer`. -/
def canWriteNbytesToBuffer (b : BufferManager) (nbytes : ℤ) : Bool :=
  !decide (b.maxSizeOfBuffer < b.currentBufferPtr + nbytes)

/-- `zxy_nbyte_written_to_buffer`. -/
def nbyteWrittenToBuffer (b : BufferManager) (nbytes : ℤ) : BufferManager :=
  { b with currentBufferPtr := b.currentBufferPtr + nbytes }

/-- `zxy_nbyte_readed_from_buffer`. -/
def nbyteReadedFromBuffer (b : BufferManager) (nbytes : ℤ) : BufferManager :=
  { b with currentBufferPtr := b.currentBufferPtr - nbytes }

/-- `zxy_clean_nbytes_from_buffer`. -/
def cleanNbytesFromBuffer (b : BufferManager) (nbytes : ℤ) : BufferManager :=
  { b with buffer := fill b.buffer 0 nbytes 0 }

/-! ## The statement sequences its callers are made of -/

/-- `memcpy(buffer + current_buffer_ptr, bytes, len)`, then
`zxy_nbyte_written_to_buffer(len)`. -/
def appendBytes (b : BufferManager) (bytes : List Byte) : BufferManager :=
  ({ b.touch .copy b.currentBufferPtr bytes.length with
      buffer := store b.buffer b.currentBufferPtr bytes }).nbyteWrittenToBuffer bytes.length

/-- `memmove(buffer, buffer + nbytes, current_buffer_ptr - nbytes)`, then
`zxy_nbyte_readed_from_buffer(nbytes)`. -/
def consume (b : BufferManager) (nbytes : ℤ) : BufferManager :=
  ({ b with buffer := move b.buffer 0 nbytes (b.currentBufferPtr - nbytes) }).nbyteReadedFromBuffer
    nbytes

/-- `if (zxy_should_resize_buffer(b)) zxy_double_buffer_size(b);` -/
def growIfFull (b : BufferManager) : BufferManager :=
  if b.shouldResizeBuffer then b.probed.doubleBufferSize else b.probed

/-- `while (!zxy_can_write_nbytes_to_buffer(b, n)) zxy_double_buffer_size(b);`
for at most `fuel` rounds. -/
def growUntilFits : ℕ → BufferManager → ℤ → BufferManager
  | 0, b, _ => b
  | fuel + 1, b, n =>
      if b.canWriteNbytesToBuffer n then b else growUntilFits fuel b.doubleBufferSize n

/-- The body shared by the four `zxy_*_queue_*_bytes`: both growth guards, the
copy and the counter. The loop needs no more rounds than `ptr + len`
(`growUntilFits_fits`). -/
def queueBytes (b : BufferManager) (bytes : List Byte) : BufferManager :=
  let b := b.growIfFull
  (growUntilFits (b.currentBufferPtr + bytes.length).toNat b bytes.length).appendBytes bytes

/-- The pending bytes: the first `current_buffer_ptr` bytes of the buffer. -/
def pending (b : BufferManager) : List Byte := window b.buffer 0 b.currentBufferPtr.toNat

/-! ## What each operation does to the fields -/

@[simp] theorem touch_ptr (b : BufferManager) (k : AccessKind) (o l : ℤ) :
    (b.touch k o l).currentBufferPtr = b.currentBufferPtr := rfl

@[simp] theorem probed_max (b : BufferManager) :
    b.probed.maxSizeOfBuffer = b.maxSizeOfBuffer := rfl
@[simp] theorem probed_ptr (b : BufferManager) :
    b.probed.currentBufferPtr = b.currentBufferPtr := rfl

@[simp] theorem doubleBufferSize_max (b : BufferManager) :
    b.doubleBufferSize.maxSizeOfBuffer = (b.maxSizeOfBuffer - 1) * 2 + 1 := rfl
@[simp] theorem doubleBufferSize_ptr (b : BufferManager) :
    b.doubleBufferSize.currentBufferPtr = b.currentBufferPtr := rfl

@[simp] theorem appendBytes_max (b : BufferManager) (xs : List Byte) :
    (b.appendBytes xs).maxSizeOfBuffer = b.maxSizeOfBuffer := rfl
@[simp] theorem appendBytes_ptr (b : BufferManager) (xs : List Byte) :
    (b.appendBytes xs).currentBufferPtr = b.currentBufferPtr + xs.length := rfl

@[simp] theorem consume_max (b : BufferManager) (n : ℤ) :
    (b.consume n).maxSizeOfBuffer = b.maxSizeOfBuffer := rfl
@[simp] theorem consume_ptr (b : BufferManager) (n : ℤ) :
    (b.consume n).currentBufferPtr = b.currentBufferPtr - n := rfl

@[simp] theorem growIfFull_ptr (b : BufferManager) :
    b.growIfFull.currentBufferPtr = b.currentBufferPtr := by
  unfold growIfFull
  split <;> rfl

theorem two_le_growIfFull_max {b : BufferManager} (h : 2 ≤ b.maxSizeOfBuffer) :
    2 ≤ b.growIfFull.maxSizeOfBuffer := by
  unfold growIfFull
  split
  · rw [doubleBufferSize_max, probed_max]
    omega
  · exact h

@[simp] theorem canWriteNbytesToBuffer_iff {b : BufferManager} {n : ℤ} :
    b.canWriteNbytesToBuffer n = true ↔ b.currentBufferPtr + n ≤ b.maxSizeOfBuffer := by
  simp [canWriteNbytesToBuffer]

/-! ## What the record of accesses says -/

/-- Every access of a kind so far satisfies `P`. -/
def EachAccess (kind : AccessKind) (P : Access → Prop) (b : BufferManager) : Prop :=
  ∀ a ∈ b.accesses, a.kind = kind → P a

section EachAccess

variable {b : BufferManager} {kind k : AccessKind} {P : Access → Prop}

theorem eachAccess_touch (o l : ℤ) :
    (b.touch k o l).EachAccess kind P ↔
      b.EachAccess kind P ∧ (k = kind → P ⟨k, o, l, b.maxSizeOfBuffer, b.allocated⟩) := by
  simp only [EachAccess, touch, List.mem_append, List.mem_singleton, or_imp, forall_and,
    forall_eq]

theorem eachAccess_touch_other (hk : k ≠ kind) (o l : ℤ) :
    (b.touch k o l).EachAccess kind P ↔ b.EachAccess kind P := by
  rw [eachAccess_touch]
  exact and_iff_left fun h => absurd h hk

theorem eachAccess_probed (hprobe : .probe ≠ kind) :
    b.probed.EachAccess kind P ↔ b.EachAccess kind P :=
  eachAccess_touch_other hprobe _ _

theorem eachAccess_doubleBufferSize (hclear : .clear ≠ kind) :
    b.doubleBufferSize.EachAccess kind P ↔ b.EachAccess kind P :=
  @eachAccess_touch_other { b with allocated := (b.maxSizeOfBuffer - 1) * 2 } kind .clear P
    hclear _ _

theorem eachAccess_growIfFull (hprobe : .probe ≠ kind) (hclear : .clear ≠ kind) :
    b.growIfFull.EachAccess kind P ↔ b.EachAccess kind P := by
  unfold growIfFull
  split
  · exact (eachAccess_doubleBufferSize hclear).trans (eachAccess_probed hprobe)
  · exact eachAccess_probed hprobe

end EachAccess

/-! ## Pending bytes form a queue -/

theorem pending_eq_nil_iff {b : BufferManager} :
    b.pending = [] ↔ b.currentBufferPtr ≤ 0 := by
  rw [← List.length_eq_zero_iff]
  simp [pending]

@[simp] theorem pending_probed (b : BufferManager) : b.probed.pending = b.pending := rfl

theorem pending_appendBytes {b : BufferManager} (h : 0 ≤ b.currentBufferPtr)
    (xs : List Byte) : (b.appendBytes xs).pending = b.pending ++ xs := by
  obtain ⟨n, hn⟩ := Int.eq_ofNat_of_zero_le h
  have hlen : (b.currentBufferPtr + (xs.length : ℤ)).toNat = n + xs.length := by omega
  have hstore := window_store_append b.buffer 0 n xs
  rw [zero_add, ← hn] at hstore
  have hn' : b.currentBufferPtr.toNat = n := by omega
  rw [pending, pending, appendBytes_ptr, hlen, hn']
  exact hstore

theorem pending_consume {b : BufferManager} {n : ℤ} (h0 : 0 ≤ n)
    (hn : n ≤ b.currentBufferPtr) : (b.consume n).pending = b.pending.drop n.toNat := by
  obtain ⟨k, hk⟩ := Int.eq_ofNat_of_zero_le (show 0 ≤ b.currentBufferPtr - n by omega)
  have hlen : b.currentBufferPtr.toNat - n.toNat = k := by omega
  rw [pending, pending, window_drop _ _ (by omega), hlen, zero_add, Int.toNat_of_nonneg h0]
  simp only [consume, nbyteReadedFromBuffer, hk]
  exact window_move b.buffer 0 n k

/-- Clearing a sent prefix before consuming it changes nothing. -/
theorem pending_consume_cleared {b : BufferManager} {n : ℤ} (h0 : 0 ≤ n)
    (hn : n ≤ b.currentBufferPtr) :
    (BufferManager.consume { b with buffer := fill b.buffer 0 n 0 } n).pending =
      b.pending.drop n.toNat := by
  have hdrop := @pending_consume { b with buffer := fill b.buffer 0 n 0 } n h0 hn
  rw [hdrop, pending, pending, window_drop _ _ (by simp; omega),
    window_drop _ _ (by omega), window_fill_ahead (by simp [h0])]

theorem pending_doubleBufferSize {b : BufferManager}
    (h : b.currentBufferPtr ≤ b.maxSizeOfBuffer) (hmax : 0 ≤ b.maxSizeOfBuffer) :
    b.doubleBufferSize.pending = b.pending := by
  simp only [pending, doubleBufferSize, touch_ptr]
  exact window_fill_behind (by simp; omega)

theorem pending_growIfFull {b : BufferManager}
    (h : b.currentBufferPtr ≤ b.maxSizeOfBuffer) (hmax : 0 ≤ b.maxSizeOfBuffer) :
    b.growIfFull.pending = b.pending := by
  unfold growIfFull
  split
  · exact pending_doubleBufferSize h hmax
  · rfl

/-! ## Sizes that stay consistent -/

/-- The counter lies inside the recorded size, which never falls below the one
a manager is created with. -/
structure WellSized (b : BufferManager) : Prop where
  ptr_nonneg : 0 ≤ b.currentBufferPtr
  ptr_le : b.currentBufferPtr ≤ b.maxSizeOfBuffer
  max_ge : (readBufSize : ℤ) + 1 ≤ b.maxSizeOfBuffer

namespace WellSized

variable {b : BufferManager}

theorem two_le_max (h : b.WellSized) : 2 ≤ b.maxSizeOfBuffer :=
  le_trans (by decide) h.max_ge

theorem one_le_max (h : b.WellSized) : 1 ≤ b.maxSizeOfBuffer :=
  le_trans (by decide) h.two_le_max

theorem max_nonneg (h : b.WellSized) : 0 ≤ b.maxSizeOfBuffer :=
  le_trans (by decide) h.two_le_max

theorem malloc (heap : Mem Byte) :
    (mallocBufferManagerWithBufferSize heap (readBufSize + 1)).WellSized :=
  ⟨le_refl _, by simp [mallocBufferManagerWithBufferSize], le_refl _⟩

theorem probed (h : b.WellSized) : b.probed.WellSized := ⟨h.ptr_nonneg, h.ptr_le, h.max_ge⟩

theorem doubleBufferSize (h : b.WellSized) : b.doubleBufferSize.WellSized := by
  obtain ⟨h0, hle, hmax⟩ := h
  refine ⟨h0, ?_, ?_⟩ <;> simp only [doubleBufferSize_ptr, doubleBufferSize_max] <;> omega

theorem growIfFull (h : b.WellSized) : b.growIfFull.WellSized := by
  unfold BufferManager.growIfFull
  split
  · exact h.probed.doubleBufferSize
  · exact h.probed

theorem growUntilFits {n : ℤ} (h : b.WellSized) :
    ∀ fuel : ℕ, (BufferManager.growUntilFits fuel b n).WellSized := by
  intro fuel
  induction fuel generalizing b with
  | zero => exact h
  | succ fuel ih =>
      unfold BufferManager.growUntilFits
      split
      · exact h
      · exact ih h.doubleBufferSize

theorem appendBytes {xs : List Byte} (h : b.WellSized)
    (hfit : b.currentBufferPtr + xs.length ≤ b.maxSizeOfBuffer) :
    (b.appendBytes xs).WellSized := by
  have h0 := h.ptr_nonneg
  exact ⟨by simp only [appendBytes_ptr]; omega, hfit, h.max_ge⟩

theorem consume {n : ℤ} (h : b.WellSized) (h0 : 0 ≤ n) (hn : n ≤ b.currentBufferPtr) :
    (b.consume n).WellSized := by
  have hle := h.ptr_le
  refine ⟨?_, ?_, h.max_ge⟩ <;> simp only [consume_ptr, consume_max] <;> omega

end WellSized

/-! ## The growth loop of the queue functions -/

@[simp] theorem growUntilFits_ptr (fuel : ℕ) (b : BufferManager) (n : ℤ) :
    (growUntilFits fuel b n).currentBufferPtr = b.currentBufferPtr := by
  induction fuel generalizing b with
  | zero => rfl
  | succ fuel ih =>
      unfold growUntilFits
      split
      · rfl
      · exact ih _

/-- Each doubling raises the recorded size, so the loop reaches any demand:
the fuel left always covers the bytes still missing. -/
theorem growUntilFits_fits {fuel : ℕ} {b : BufferManager} {n : ℤ} (h : b.WellSized)
    (hfuel : b.currentBufferPtr + n ≤ b.maxSizeOfBuffer + fuel) :
    b.currentBufferPtr + n ≤ (growUntilFits fuel b n).maxSizeOfBuffer := by
  induction fuel generalizing b with
  | zero => simpa [growUntilFits] using hfuel
  | succ fuel ih =>
      unfold growUntilFits
      split
      · exact canWriteNbytesToBuffer_iff.mp ‹_›
      · have hmax := h.two_le_max
        refine ih h.doubleBufferSize ?_
        simp only [doubleBufferSize_ptr, doubleBufferSize_max]
        push_cast at hfuel
        omega

theorem pending_growUntilFits {fuel : ℕ} {b : BufferManager} {n : ℤ} (h : b.WellSized) :
    (growUntilFits fuel b n).pending = b.pending := by
  induction fuel generalizing b with
  | zero => rfl
  | succ fuel ih =>
      unfold growUntilFits
      split
      · rfl
      · rw [ih h.doubleBufferSize, pending_doubleBufferSize h.ptr_le h.max_nonneg]

theorem queueBytes_ptr (b : BufferManager) (xs : List Byte) :
    (b.queueBytes xs).currentBufferPtr = b.currentBufferPtr + xs.length := by
  simp [queueBytes]

theorem WellSized.queueBytes {b : BufferManager} (h : b.WellSized) (xs : List Byte) :
    (b.queueBytes xs).WellSized := by
  have hg := h.growIfFull
  refine (hg.growUntilFits _).appendBytes ?_
  rw [growUntilFits_ptr]
  refine growUntilFits_fits hg ?_
  have hmax := hg.two_le_max
  omega

/-- **Queueing appends**: nothing pending is touched by the growth. -/
theorem pending_queueBytes {b : BufferManager} (h : b.WellSized) (xs : List Byte) :
    (b.queueBytes xs).pending = b.pending ++ xs := by
  have hg := h.growIfFull
  have hw := hg.growUntilFits (b.growIfFull.currentBufferPtr + xs.length).toNat (n := xs.length)
  rw [queueBytes, pending_appendBytes hw.ptr_nonneg, pending_growUntilFits hg,
    pending_growIfFull h.ptr_le h.max_nonneg]

end BufferManager
end Zroxy
