import Zroxy.Lib.Loops
import Zroxy.Lib.MachineInt
import Zroxy.Utils.BufferManager

/-!
# The sizes of a buffer manager in 32 bits

`max_size_of_buffer` and `current_buffer_ptr` are `int`s, `BufferManager` keeps
them as exact integers. Here the queue functions are repeated with each size
computed as the code does, in 32-bit registers that wrap; `realloc` is still
taken to succeed.

`queueBytes32_refines` is what entitles the exact model to its integers: while
no more than `2 ^ 30 + 1` bytes are asked for, the two compute the same.
-/

namespace Zroxy
namespace BufferManager

open OffsetMemory MachineInt Loops

/-! ## The size computations of the source -/

/-- `max_size_of_buffer - 1`. -/
def lastIndex (b : BufferManager) : IntExpr := .sub (.lit b.maxSizeOfBuffer) (.lit 1)

/-- `(max_size_of_buffer - 1) * 2`. -/
def requestedSize (b : BufferManager) : IntExpr := .mul b.lastIndex (.lit 2)

/-- `(max_size_of_buffer - 1) * 2 + 1`. -/
def doubledSize (b : BufferManager) : IntExpr := .add b.requestedSize (.lit 1)

/-- `current_buffer_ptr + nbytes`. -/
def demand (b : BufferManager) (nbytes : ℤ) : IntExpr :=
  .add (.lit b.currentBufferPtr) (.lit nbytes)

/-- An `int` where a `size_t` is expected. -/
def toSizeT (n : ℤ) : ℤ := n % 2 ^ 64

/-! ## The operations -/

/-- `zxy_double_buffer_size`; the recorded size changes last. -/
def doubleBufferSize32 (b : BufferManager) : BufferManager :=
  let requested := toSizeT (b.requestedSize.result 32)
  let cleared := toSizeT (b.lastIndex.result 32)
  let doubled := b.doubledSize.result 32
  let b := { b with allocated := requested }
  let b := { b.touch .clear b.maxSizeOfBuffer cleared with
    buffer := fill b.buffer b.maxSizeOfBuffer cleared 0 }
  { b with maxSizeOfBuffer := doubled }

/-- `zxy_should_resize_buffer`. -/
def shouldResizeBuffer32 (b : BufferManager) : Bool := b.buffer (b.lastIndex.result 32) != 0

/-- `!zxy_can_write_nbytes_to_buffer`. -/
def lacksRoom32 (nbytes : ℤ) (b : BufferManager) : Bool :=
  decide (b.maxSizeOfBuffer < (b.demand nbytes).result 32)

/-- `if (zxy_should_resize_buffer(b)) zxy_double_buffer_size(b);` -/
def growIfFull32 (b : BufferManager) : BufferManager :=
  let probed := b.touch .probe (b.lastIndex.result 32) 1
  if b.shouldResizeBuffer32 then probed.doubleBufferSize32 else probed

/-- `memcpy(buffer + current_buffer_ptr, bytes, len)`, then
`zxy_nbyte_written_to_buffer(len)`. -/
def appendBytes32 (b : BufferManager) (bytes : List Byte) : BufferManager :=
  { b.touch .copy b.currentBufferPtr bytes.length with
    buffer := store b.buffer b.currentBufferPtr bytes
    currentBufferPtr := (b.demand (wrap 32 bytes.length)).result 32 }

/-- The body shared by the four `zxy_*_queue_*_bytes`; `len` is a `size_t`, and
the manager's functions take an `int32_t`. -/
def queueBytes32 (fuel : ℕ) (b : BufferManager) (bytes : List Byte) : Option BufferManager :=
  (whileLoop (lacksRoom32 (wrap 32 bytes.length)) doubleBufferSize32 fuel b.growIfFull32).map
    fun b => b.appendBytes32 bytes

/-! ## What is exact -/

variable {b : BufferManager} {n : ℤ}

theorem representable_int_iff : Representable 32 n ↔ -2 ^ 31 ≤ n ∧ n < 2 ^ 31 :=
  representable_succ_iff

theorem representable_of_le_limit (h : 0 ≤ n) (hle : n ≤ 2 ^ 30 + 1) : Representable 32 n := by
  rw [representable_int_iff]
  omega

@[simp] theorem lastIndex_value (b : BufferManager) :
    b.lastIndex.value = b.maxSizeOfBuffer - 1 := rfl
@[simp] theorem requestedSize_value (b : BufferManager) :
    b.requestedSize.value = (b.maxSizeOfBuffer - 1) * 2 := rfl
@[simp] theorem doubledSize_value (b : BufferManager) :
    b.doubledSize.value = (b.maxSizeOfBuffer - 1) * 2 + 1 := rfl
@[simp] theorem demand_value (b : BufferManager) (n : ℤ) :
    (b.demand n).value = b.currentBufferPtr + n := rfl

theorem exact_lastIndex (h : 1 ≤ b.maxSizeOfBuffer) (hmax : Representable 32 b.maxSizeOfBuffer) :
    b.lastIndex.Exact 32 := by
  refine IntExpr.exact_sub_iff.mpr ⟨trivial, trivial, ?_⟩
  rw [representable_int_iff] at hmax ⊢
  simp only [IntExpr.value]
  omega

/-- **A doubling is exact** up to `2 ^ 30`. -/
theorem exact_doubledSize_iff (h : 1 ≤ b.maxSizeOfBuffer)
    (hmax : Representable 32 b.maxSizeOfBuffer) :
    b.doubledSize.Exact 32 ↔ b.maxSizeOfBuffer ≤ 2 ^ 30 := by
  rw [doubledSize, IntExpr.exact_add_iff, requestedSize_value]
  constructor
  · rintro ⟨-, -, hsum⟩
    rw [representable_int_iff, IntExpr.value] at hsum
    omega
  · intro hle
    have hrequested : b.requestedSize.Exact 32 := by
      refine IntExpr.exact_mul_iff.mpr ⟨exact_lastIndex h hmax, trivial, ?_⟩
      rw [representable_int_iff, lastIndex_value, IntExpr.value]
      omega
    refine ⟨hrequested, trivial, ?_⟩
    rw [representable_int_iff, IntExpr.value]
    omega

theorem exact_demand_iff : (b.demand n).Exact 32 ↔ Representable 32 (b.currentBufferPtr + n) := by
  rw [demand, IntExpr.exact_add_iff]
  exact (and_iff_right trivial).trans (and_iff_right trivial)

theorem toSizeT_eq (h : 0 ≤ n) (hlt : n < 2 ^ 64) : toSizeT n = n := Int.emod_eq_of_lt h hlt

/-! ## Below the limit nothing wraps -/

theorem shouldResizeBuffer32_eq (h : 1 ≤ b.maxSizeOfBuffer)
    (hmax : Representable 32 b.maxSizeOfBuffer) :
    b.shouldResizeBuffer32 = b.shouldResizeBuffer := by
  unfold shouldResizeBuffer32 shouldResizeBuffer
  rw [(exact_lastIndex h hmax).result_eq, lastIndex_value]

theorem doubleBufferSize32_eq (h : 1 ≤ b.maxSizeOfBuffer) (hle : b.maxSizeOfBuffer ≤ 2 ^ 30) :
    b.doubleBufferSize32 = b.doubleBufferSize := by
  have hexact : b.doubledSize.Exact 32 := (exact_doubledSize_iff h (by
    rw [representable_int_iff]
    omega)).mpr hle
  obtain ⟨hrequested, -, -⟩ := id hexact
  obtain ⟨hindex, -, -⟩ := id hrequested
  have hcleared : toSizeT (b.lastIndex.result 32) = b.maxSizeOfBuffer - 1 := by
    rw [hindex.result_eq, lastIndex_value]
    exact toSizeT_eq (by omega) (by omega)
  have hasked : toSizeT (b.requestedSize.result 32) = (b.maxSizeOfBuffer - 1) * 2 := by
    rw [hrequested.result_eq, requestedSize_value]
    exact toSizeT_eq (by omega) (by omega)
  unfold doubleBufferSize32 doubleBufferSize
  rw [hcleared, hasked, hexact.result_eq]
  rfl

theorem growIfFull32_eq (h : 1 ≤ b.maxSizeOfBuffer) (hmax : Representable 32 b.maxSizeOfBuffer)
    (hfull : b.shouldResizeBuffer = true → b.maxSizeOfBuffer ≤ 2 ^ 30) :
    b.growIfFull32 = b.growIfFull := by
  have hprobed : b.touch .probe (b.lastIndex.result 32) 1 = b.probed := by
    rw [(exact_lastIndex h hmax).result_eq]
    rfl
  unfold growIfFull32 growIfFull
  rw [shouldResizeBuffer32_eq h hmax, hprobed]
  split
  · exact doubleBufferSize32_eq h (hfull ‹_›)
  · rfl

/-- What a growth loop asked for `n` bytes starts from, and keeps. -/
structure BelowLimit (n : ℤ) (b : BufferManager) : Prop where
  sized : b.WellSized
  max_representable : Representable 32 b.maxSizeOfBuffer
  nonneg : 0 ≤ n
  demand_le : b.currentBufferPtr + n ≤ 2 ^ 30 + 1

namespace BelowLimit

theorem representable (h : b.BelowLimit n) : Representable 32 n := by
  have h0 := h.sized.ptr_nonneg
  have hle := h.demand_le
  exact representable_of_le_limit h.nonneg (by omega)

theorem exact_demand (h : b.BelowLimit n) : (b.demand n).Exact 32 := by
  rw [exact_demand_iff]
  exact representable_of_le_limit (add_nonneg h.sized.ptr_nonneg h.nonneg) h.demand_le

theorem lacksRoom32_eq (h : b.BelowLimit n) :
    lacksRoom32 n b = !b.canWriteNbytesToBuffer n := by
  unfold lacksRoom32 canWriteNbytesToBuffer
  rw [h.exact_demand.result_eq, demand_value, Bool.not_not]

theorem max_le (h : b.BelowLimit n) (hroom : lacksRoom32 n b = true) :
    b.maxSizeOfBuffer ≤ 2 ^ 30 := by
  rw [h.lacksRoom32_eq, Bool.not_eq_true', ← Bool.not_eq_true, canWriteNbytesToBuffer_iff] at hroom
  have hle := h.demand_le
  omega

theorem doubleBufferSize32_eq (h : b.BelowLimit n) (hroom : lacksRoom32 n b = true) :
    b.doubleBufferSize32 = b.doubleBufferSize :=
  BufferManager.doubleBufferSize32_eq h.sized.one_le_max (h.max_le hroom)

theorem doubleBufferSize (h : b.BelowLimit n) (hle : b.maxSizeOfBuffer ≤ 2 ^ 30) :
    b.doubleBufferSize.BelowLimit n := by
  have htwo := h.sized.two_le_max
  refine ⟨h.sized.doubleBufferSize, ?_, h.nonneg, h.demand_le⟩
  rw [representable_int_iff, doubleBufferSize_max]
  omega

theorem growIfFull (h : b.BelowLimit n)
    (hfull : b.shouldResizeBuffer = true → b.maxSizeOfBuffer ≤ 2 ^ 30) :
    b.growIfFull.BelowLimit n := by
  have hprobed : b.probed.BelowLimit n := ⟨h.sized.probed, h.max_representable, h.nonneg,
    h.demand_le⟩
  unfold BufferManager.growIfFull
  split
  · exact hprobed.doubleBufferSize (hfull ‹_›)
  · exact hprobed

/-- **The growth loop** ends with what the exact loop makes of the buffer. -/
theorem ends {fuel : ℕ} (h : b.BelowLimit n)
    (hfuel : b.currentBufferPtr + n ≤ b.maxSizeOfBuffer + fuel) :
    Ends (lacksRoom32 n) doubleBufferSize32 b (growUntilFits fuel b n) := by
  induction fuel generalizing b with
  | zero =>
      have hroom : b.canWriteNbytesToBuffer n = true := by
        rw [canWriteNbytesToBuffer_iff]
        simpa using hfuel
      exact ends_of_done (by rw [h.lacksRoom32_eq, hroom, Bool.not_true])
  | succ fuel ih =>
      cases hroom : b.canWriteNbytesToBuffer n with
      | true =>
          rw [growUntilFits, if_pos hroom]
          exact ends_of_done (by rw [h.lacksRoom32_eq, hroom, Bool.not_true])
      | false =>
          have hlacks : lacksRoom32 n b = true := by rw [h.lacksRoom32_eq, hroom, Bool.not_false]
          have htwo := h.sized.two_le_max
          rw [growUntilFits, if_neg (by simp [hroom]), ends_iff_of_turn hlacks,
            h.doubleBufferSize32_eq hlacks]
          apply ih (h.doubleBufferSize (h.max_le hlacks))
          simp only [doubleBufferSize_ptr, doubleBufferSize_max]
          push_cast at hfuel
          omega

theorem visits {r : BufferManager} (h : b.BelowLimit n)
    (hr : Visits (lacksRoom32 n) doubleBufferSize32 b r) : r.BelowLimit n := by
  apply hr.invariant _ h
  intro r hr hroom
  rw [hr.doubleBufferSize32_eq hroom]
  exact hr.doubleBufferSize (hr.max_le hroom)

end BelowLimit

theorem appendBytes32_eq {bytes : List Byte} (h : b.BelowLimit bytes.length) :
    b.appendBytes32 bytes = b.appendBytes bytes := by
  have hlen := wrap_of_representable h.representable
  unfold appendBytes32
  rw [hlen, h.exact_demand.result_eq]
  rfl

/-- **The queue functions** compute in 32 bits what they do on the integers, as
long as no more than `2 ^ 30 + 1` bytes are asked for, and a buffer of that size
is not found full. -/
theorem queueBytes32_refines {bytes : List Byte} (h : b.BelowLimit bytes.length)
    (hfull : b.shouldResizeBuffer = true → b.maxSizeOfBuffer ≤ 2 ^ 30) :
    ∃ fuel, queueBytes32 fuel b bytes = some (b.queueBytes bytes) := by
  have hgrown := h.growIfFull hfull
  have htwo := hgrown.sized.two_le_max
  obtain ⟨fuel, hrun⟩ := @BelowLimit.ends _ bytes.length
    (b.growIfFull.currentBufferPtr + bytes.length).toNat hgrown (by omega)
  refine ⟨fuel, ?_⟩
  unfold queueBytes32
  rw [wrap_of_representable h.representable,
    growIfFull32_eq h.sized.one_le_max h.max_representable hfull, hrun,
    Option.map_some, appendBytes32_eq (hgrown.visits (ends_iff.mp ⟨fuel, hrun⟩).1)]
  rfl

end BufferManager
end Zroxy
