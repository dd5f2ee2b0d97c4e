import Zroxy.Utils.BufferManager

/-!
# The two tests for a full buffer

`zxy_should_resize_buffer` looks at the last byte of the buffer,
`zxy_can_write_nbytes_to_buffer` at the counter. A byte that was never written
is NUL, so the two agree as long as the last byte is NUL exactly while the
counter has not reached the end.

`fullness_run_iff` says which steps break that: an append that fills the buffer
and ends in NUL, a consumption from a full buffer, and the zero-filling of a
full buffer.
-/

namespace Zroxy

open OffsetMemory Runs

inductive FullnessOp where
  | append (bytes : List Byte)
  | consume (nbytes : ℕ)
  | clean (nbytes : ℕ)
  | double
deriving DecidableEq

/-- The step would leave the pending bytes or the buffer. -/
inductive Misuse where
  | outOfRange

namespace BufferManager

/-- The two tests say the same. -/
def FullnessAgrees (b : BufferManager) : Prop :=
  b.shouldResizeBuffer = true ↔ b.canWriteNbytesToBuffer 1 = false

/-- The counter lies inside the buffer, which has at least a last byte. -/
structure PtrInside (b : BufferManager) : Prop where
  ptr_nonneg : 0 ≤ b.currentBufferPtr
  ptr_le : b.currentBufferPtr ≤ b.maxSizeOfBuffer
  one_le_max : 1 ≤ b.maxSizeOfBuffer

/-- Appends stay within the capacity, consumption and zero-filling within the
pending bytes. A doubling of one byte would `realloc` to none. -/
def InRange (b : BufferManager) : FullnessOp → Prop
  | .append bytes => b.canWriteNbytesToBuffer bytes.length = true
  | .consume nbytes => nbytes ≤ b.currentBufferPtr
  | .clean nbytes => nbytes ≤ b.currentBufferPtr
  | .double => 2 ≤ b.maxSizeOfBuffer

instance (b : BufferManager) (op : FullnessOp) : Decidable (b.InRange op) := by
  unfold InRange
  split <;> infer_instance

def after (b : BufferManager) : FullnessOp → BufferManager
  | .append bytes => b.appendBytes bytes
  | .consume nbytes => b.consume nbytes
  | .clean nbytes => b.cleanNbytesFromBuffer nbytes
  | .double => b.doubleBufferSize

def stepInRange (b : BufferManager) (op : FullnessOp) : Except Misuse BufferManager :=
  if b.InRange op then .ok (b.after op) else .error .outOfRange

/-- An append that ends in NUL does not fill the buffer, and a full buffer is
neither consumed from nor zero-filled to its end. -/
def KeepsAgreement (b : BufferManager) : FullnessOp → Prop
  | .append bytes =>
      bytes.getLast? = some 0 → b.currentBufferPtr + bytes.length ≠ b.maxSizeOfBuffer
  | .consume nbytes => nbytes ≠ 0 → b.currentBufferPtr ≠ b.maxSizeOfBuffer
  | .clean nbytes => nbytes ≠ b.maxSizeOfBuffer
  | .double => True

variable {b b' : BufferManager} {op : FullnessOp}

theorem stepInRange_ok_iff : b.stepInRange op = .ok b' ↔ b.InRange op ∧ b.after op = b' := by
  unfold stepInRange
  split
  · rw [Except.ok.injEq]
    exact (and_iff_right ‹_›).symm
  · refine iff_of_false ?_ (fun h => absurd h.1 ‹_›)
    rintro ⟨⟩

theorem PtrInside.malloc (heap : Mem Byte) {maxBufferSize : ℤ} (h : 1 ≤ maxBufferSize) :
    (mallocBufferManagerWithBufferSize heap maxBufferSize).PtrInside :=
  ⟨le_refl _, le_trans zero_le_one h, h⟩

theorem PtrInside.after (h : b.PtrInside) (hop : b.InRange op) : (b.after op).PtrInside := by
  obtain ⟨h0, hle, hmax⟩ := h
  cases op with
  | append bytes =>
      have hfit := canWriteNbytesToBuffer_iff.mp hop
      refine ⟨?_, hfit, hmax⟩
      show 0 ≤ b.currentBufferPtr + bytes.length
      omega
  | consume n =>
      change (n : ℤ) ≤ b.currentBufferPtr at hop
      constructor <;> simp only [BufferManager.after, consume_ptr, consume_max] <;> omega
  | clean n => constructor <;> assumption
  | double =>
      change 2 ≤ b.maxSizeOfBuffer at hop
      constructor <;> simp only [BufferManager.after, doubleBufferSize_ptr,
        doubleBufferSize_max] <;> omega

/-! ## The last byte -/

/-- The byte `zxy_should_resize_buffer` looks at. -/
def lastByte (b : BufferManager) : Byte := b.buffer (b.maxSizeOfBuffer - 1)

theorem fullnessAgrees_iff (h : b.PtrInside) :
    b.FullnessAgrees ↔ (b.lastByte ≠ 0 ↔ b.currentBufferPtr = b.maxSizeOfBuffer) := by
  have hle := h.ptr_le
  have hfull : b.canWriteNbytesToBuffer 1 = false ↔ b.currentBufferPtr = b.maxSizeOfBuffer := by
    rw [← Bool.not_eq_true, canWriteNbytesToBuffer_iff]
    omega
  unfold FullnessAgrees
  rw [hfull]
  simp [shouldResizeBuffer, lastByte]

theorem lastByte_appendBytes_short {bytes : List Byte}
    (h : b.currentBufferPtr + bytes.length < b.maxSizeOfBuffer) :
    (b.appendBytes bytes).lastByte = b.lastByte :=
  store_above (by simp; omega)

theorem lastByte_appendBytes_nil (b : BufferManager) :
    (b.appendBytes []).lastByte = b.lastByte := by
  unfold lastByte
  rw [appendBytes_max]
  exact congrFun (store_nil b.buffer b.currentBufferPtr) _

theorem lastByte_appendBytes_full {bytes : List Byte} {x : Byte}
    (h : b.currentBufferPtr + (bytes ++ [x]).length = b.maxSizeOfBuffer) :
    (b.appendBytes (bytes ++ [x])).lastByte = x := by
  have hend : b.maxSizeOfBuffer - 1 = b.currentBufferPtr + bytes.length := by
    rw [← h, List.length_append, List.length_singleton]
    push_cast
    omega
  unfold lastByte
  rw [appendBytes_max, hend]
  exact store_concat _ _ _ _

theorem lastByte_consume (h : b.PtrInside) {n : ℕ} : (b.consume n).lastByte = b.lastByte := by
  have hle := h.ptr_le
  rcases Nat.eq_zero_or_pos n with rfl | hn
  · simp [lastByte, consume, nbyteReadedFromBuffer]
  · exact move_outside (by simp; omega)

theorem lastByte_clean_short {n : ℤ} (h : n < b.maxSizeOfBuffer) :
    (b.cleanNbytesFromBuffer n).lastByte = b.lastByte :=
  fill_outside (by simp [cleanNbytesFromBuffer]; omega)

theorem lastByte_clean_full (h : 1 ≤ b.maxSizeOfBuffer) :
    (b.cleanNbytesFromBuffer b.maxSizeOfBuffer).lastByte = 0 :=
  fill_inside (by simp [cleanNbytesFromBuffer]; omega)

theorem lastByte_doubleBufferSize (h : 2 ≤ b.maxSizeOfBuffer) :
    b.doubleBufferSize.lastByte = 0 :=
  fill_inside (by simp; omega)

/-! ## Each step -/

theorem fullnessAgrees_append_iff (h : b.PtrInside) (hb : b.FullnessAgrees)
    {bytes : List Byte} (hop : b.InRange (.append bytes)) :
    (b.appendBytes bytes).FullnessAgrees ↔ b.KeepsAgreement (.append bytes) := by
  have h' : (b.appendBytes bytes).PtrInside := h.after hop
  have hfit := canWriteNbytesToBuffer_iff.mp hop
  have hlast := (fullnessAgrees_iff h).mp hb
  rw [fullnessAgrees_iff h', appendBytes_ptr, appendBytes_max, KeepsAgreement]
  rcases hfit.lt_or_eq with hroom | hfull
  · rw [lastByte_appendBytes_short hroom, hlast]
    omega
  · rcases List.eq_nil_or_concat' bytes with rfl | ⟨xs, x, rfl⟩
    · rw [lastByte_appendBytes_nil, hlast]
      simp
    · rw [lastByte_appendBytes_full hfull, List.getLast?_concat, Option.some_inj]
      simp only [hfull, iff_true, ne_eq, not_true_eq_false, imp_false]

theorem fullnessAgrees_consume_iff (h : b.PtrInside) (hb : b.FullnessAgrees) {n : ℕ}
    (hop : b.InRange (.consume n)) :
    (b.consume n).FullnessAgrees ↔ b.KeepsAgreement (.consume n) := by
  have h' : (b.consume n).PtrInside := h.after hop
  have hle := h.ptr_le
  rw [fullnessAgrees_iff h', lastByte_consume h, (fullnessAgrees_iff h).mp hb, consume_ptr,
    consume_max, KeepsAgreement]
  omega

theorem fullnessAgrees_clean_iff (h : b.PtrInside) (hb : b.FullnessAgrees) {n : ℕ}
    (hop : b.InRange (.clean n)) :
    (b.cleanNbytesFromBuffer n).FullnessAgrees ↔ b.KeepsAgreement (.clean n) := by
  have h' : (b.cleanNbytesFromBuffer n).PtrInside := h.after hop
  have hle := h.ptr_le
  change (n : ℤ) ≤ b.currentBufferPtr at hop
  rw [KeepsAgreement]
  rcases (hop.trans hle).lt_or_eq with hshort | hfull
  · refine iff_of_true ?_ hshort.ne
    rw [fullnessAgrees_iff h', lastByte_clean_short hshort]
    exact (fullnessAgrees_iff h).mp hb
  · refine iff_of_false ?_ (not_not.mpr hfull)
    rw [fullnessAgrees_iff h', hfull, lastByte_clean_full h.one_le_max]
    -- the buffer stays full, and ends in NUL now
    have hptr : b.currentBufferPtr = b.maxSizeOfBuffer := by omega
    exact fun hagree => hagree.mpr hptr rfl

theorem fullnessAgrees_double (h : b.PtrInside) (hop : b.InRange .double) :
    b.doubleBufferSize.FullnessAgrees := by
  have h' : b.doubleBufferSize.PtrInside := h.after hop
  have hle := h.ptr_le
  change 2 ≤ b.maxSizeOfBuffer at hop
  rw [fullnessAgrees_iff h', lastByte_doubleBufferSize hop, doubleBufferSize_ptr,
    doubleBufferSize_max]
  refine iff_of_false (not_not.mpr rfl) ?_
  omega

/-- **One step** keeps the agreement exactly when it is none of the three. -/
theorem fullnessAgrees_step_iff (h : b.PtrInside) (hb : b.FullnessAgrees)
    (hstep : b.stepInRange op = .ok b') : b'.FullnessAgrees ↔ b.KeepsAgreement op := by
  obtain ⟨hop, rfl⟩ := stepInRange_ok_iff.mp hstep
  cases op with
  | append bytes => exact fullnessAgrees_append_iff h hb hop
  | consume n => exact fullnessAgrees_consume_iff h hb hop
  | clean n => exact fullnessAgrees_clean_iff h hb hop
  | double => exact iff_of_true (fullnessAgrees_double h hop) trivial

/-! ## Runs -/

theorem fullnessAgrees_malloc (heap : Mem Byte) {maxBufferSize : ℤ} (h : 1 ≤ maxBufferSize) :
    (mallocBufferManagerWithBufferSize heap maxBufferSize).FullnessAgrees := by
  rw [fullnessAgrees_iff (.malloc heap h)]
  refine iff_of_false (not_not.mpr ?_) ?_
  · exact fill_inside ⟨by simpa [mallocBufferManagerWithBufferSize] using h, by
      simp [mallocBufferManagerWithBufferSize]⟩
  · show ¬ (0 : ℤ) = maxBufferSize
    omega

/-- **The two tests, exactly.** From a new manager of any size, the tests agree in
every state of a run if and only if no append fills the buffer with a NUL at the
end, and no full buffer is consumed from or zero-filled to its end. -/
theorem fullness_run_iff (heap : Mem Byte) (maxBufferSize : ℤ) (h : 1 ≤ maxBufferSize)
    (ops : List FullnessOp) :
    Always stepInRange FullnessAgrees (mallocBufferManagerWithBufferSize heap maxBufferSize) ops ↔
      EachStep stepInRange KeepsAgreement
        (mallocBufferManagerWithBufferSize heap maxBufferSize) ops := by
  apply always_iff_eachStep (I := PtrInside)
  · intro b op b' hb hagree hstep
    exact fullnessAgrees_step_iff hb hagree hstep
  · intro b op b' hb _ hstep _
    obtain ⟨hop, rfl⟩ := stepInRange_ok_iff.mp hstep
    exact hb.after hop
  · exact .malloc heap h
  · exact fullnessAgrees_malloc heap h

/-- A NUL behind a letter, one byte taken off, and a doubling. -/
theorem fullness_run_letter :
    Always stepInRange FullnessAgrees
        (mallocBufferManagerWithBufferSize (fun _ => 0) (readBufSize + 1))
        [.append [65, 0], .consume 1, .double] ↔
      EachStep stepInRange KeepsAgreement
        (mallocBufferManagerWithBufferSize (fun _ => 0) (readBufSize + 1))
        [.append [65, 0], .consume 1, .double] :=
  fullness_run_iff _ _ (by decide) _

/-- As many NULs as a new connection's buffer has room for. -/
def nuls : List Byte := List.replicate (readBufSize + 1) 0

/-- A buffer filled with NULs: no room is left, and the last byte is NUL. -/
theorem nuls_fill_the_buffer :
    ¬ ∀ (heap : Mem Byte) (maxBufferSize : ℤ), 1 ≤ maxBufferSize → ∀ ops : List FullnessOp,
      Always stepInRange FullnessAgrees
        (mallocBufferManagerWithBufferSize heap maxBufferSize) ops := by
  intro h
  have hrun := h (fun _ => 0) (readBufSize + 1) (by decide) [.append nuls]
  set b := mallocBufferManagerWithBufferSize (fun _ => 0) (readBufSize + 1)
  have hlen : (0 : ℤ) + nuls.length = readBufSize + 1 := by simp [nuls]
  have hstep : b.stepInRange (.append nuls) = .ok (b.appendBytes nuls) :=
    stepInRange_ok_iff.mpr ⟨canWriteNbytesToBuffer_iff.mpr hlen.le, rfl⟩
  have hagree := (hrun.2 _ hstep).head
  rw [fullnessAgrees_step_iff (.malloc _ (by decide)) (fullnessAgrees_malloc _ (by decide))
    hstep] at hagree
  exact hagree (by simp [nuls, List.getLast?_replicate]) hlen

end BufferManager
end Zroxy
