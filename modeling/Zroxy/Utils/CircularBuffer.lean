import Zroxy.Lib.MachineInt
import Zroxy.Lib.RingMemory
import Zroxy.Utils.BufferManager

/-!
# The circular buffer (`utils/io/circular_buffer.c`)

Bytes are written at `head` and read at `tail`; the two are equal in an empty
and in a full buffer, and `isFull` tells one from the other. Indices and sizes
are `size_t` in the source and never come near its bound; the narrower types of
some results are `toInt32` and `toInt8`.

`contents` is what the buffer stands for: the stored bytes, oldest first. Below
the translation, `WellFormed` is what the operations keep, and each of them is
described by what it does to `contents`.
-/

namespace Zroxy

open MachineInt OffsetMemory Runs

/-- A `size_t` returned as an `int32_t`. -/
def toInt32 (n : ℕ) : ℤ := Int.bmod n (2 ^ 32)

/-- A `size_t` returned as an `int8_t`. -/
def toInt8 (n : ℕ) : ℤ := Int.bmod n (2 ^ 8)

/-- `zxy_circular_buffer_t`. -/
structure CircularBuffer where
  buf : Mem Byte
  tail : ℕ
  head : ℕ
  maximumSizeOfBuffer : ℕ
  isFull : Bool

namespace CircularBuffer

variable (b : CircularBuffer)

/-! ## The operations of the source -/

/-- `zxy_advance_pointer`. -/
def advancePointer : CircularBuffer :=
  let tail :=
    if b.isFull then if b.tail + 1 = b.maximumSizeOfBuffer then 0 else b.tail + 1 else b.tail
  let head := if b.head + 1 = b.maximumSizeOfBuffer then 0 else b.head + 1
  { b with tail := tail, head := head, isFull := decide (tail = head) }

/-- `zxy_retreat_pointer`. -/
def retreatPointer : CircularBuffer :=
  { b with
    isFull := false
    tail := if b.tail + 1 = b.maximumSizeOfBuffer then 0 else b.tail + 1 }

/-- `zxy_create_circular_buffer`; `heap` is what `malloc` leaves in the block. -/
def createCircularBuffer (heap : Mem Byte) (sizeOfBuffer : ℕ) : CircularBuffer where
  buf := heap
  tail := 0
  head := 0
  maximumSizeOfBuffer := sizeOfBuffer
  isFull := false

/-- `zxy_double_size_of_circular_buffer`; `heap` is what `malloc` leaves in the
new block. The new `head` is computed when `tail` is 0 already. -/
def doubleSizeOfCircularBuffer (heap : Mem Byte) : CircularBuffer :=
  if b.head > b.tail then
    { b with
      buf := store heap 0 (window b.buf b.tail (b.head - b.tail))
      tail := 0
      head := b.head - 0
      maximumSizeOfBuffer := b.maximumSizeOfBuffer * 2 }
  else
    let doubled := store heap 0 (window b.buf b.tail b.maximumSizeOfBuffer)
    { b with
      buf := store doubled (b.maximumSizeOfBuffer - b.tail) (window b.buf 0 b.head)
      tail := 0
      head := b.maximumSizeOfBuffer + b.head - 0
      maximumSizeOfBuffer := b.maximumSizeOfBuffer * 2 }

/-- The runs of bytes that `zxy_double_size_of_circular_buffer` reads: offset and
length of each `memmove`. -/
def doubleSizeReads : List (ℕ × ℕ) :=
  if b.head > b.tail then [(b.tail, b.head - b.tail)]
  else [(b.tail, b.maximumSizeOfBuffer), (0, b.head)]

/-- `zxy_clear_circular_buffer`. -/
def clearCircularBuffer : CircularBuffer × ℤ :=
  ({ b with
      buf := fill b.buf 0 b.maximumSizeOfBuffer 0
      head := 0
      tail := 0
      isFull := false }, 1)

/-- One turn of the loop of `zxy_write_buffer_to_circular_buffer`. -/
def writeByte (x : Byte) : CircularBuffer :=
  advancePointer { b with buf := store b.buf b.head [x] }

/-- `zxy_write_buffer_to_circular_buffer`. -/
def writeBufferToCircularBuffer (bytes : List Byte) : CircularBuffer × ℤ :=
  (bytes.foldl writeByte b, toInt32 bytes.length)

/-- The loop of `zxy_get_buffer_from_circular_buffer`, with the bytes that go to
`data`. -/
def getBytes : ℕ → CircularBuffer → CircularBuffer × List Byte
  | 0, b => (b, [])
  | len + 1, b =>
      let r := getBytes len b.retreatPointer
      (r.1, b.buf b.tail :: r.2)

/-- `zxy_get_buffer_from_circular_buffer`: the buffer, the bytes, the result. -/
def getBufferFromCircularBuffer (len : ℕ) : CircularBuffer × List Byte × ℤ :=
  let r := getBytes len b
  (r.1, r.2, toInt8 len)

/-- `zxy_is_circular_buffer_empty`. -/
def isCircularBufferEmpty : ℤ := if b.head = b.tail then 1 else 0

/-- The variable `size` of `zxy_current_circular_buffer_size`. -/
def size : ℕ :=
  if !b.isFull then
    if b.head ≥ b.tail then b.head - b.tail else b.maximumSizeOfBuffer + b.head - b.tail
  else b.maximumSizeOfBuffer

/-- `zxy_current_circular_buffer_size`. -/
def currentCircularBufferSize : ℤ := toInt32 b.size

/-! ## What the buffer stands for -/

def contents : List Byte := ring b.buf b.maximumSizeOfBuffer b.tail b.size

/-- Both indices are inside the block, and a full buffer ends where it begins. -/
structure WellFormed (b : CircularBuffer) : Prop where
  head_lt : b.head < b.maximumSizeOfBuffer
  tail_lt : b.tail < b.maximumSizeOfBuffer
  full : b.isFull = true → b.head = b.tail

variable {b}

@[simp] theorem contents_length (b : CircularBuffer) : b.contents.length = b.size :=
  ring_length ..

theorem size_of_full (h : b.isFull = true) : b.size = b.maximumSizeOfBuffer := by
  rw [size, h]
  rfl

theorem size_of_room (h : b.isFull = false) :
    b.size = if b.head ≥ b.tail then b.head - b.tail
      else b.maximumSizeOfBuffer + b.head - b.tail := by
  rw [size, h]
  rfl

namespace WellFormed

theorem create (heap : Mem Byte) {N : ℕ} (h : 1 ≤ N) :
    (createCircularBuffer heap N).WellFormed :=
  ⟨h, h, nofun⟩

/-- In a buffer with room the head is reached from the tail in as many steps as
bytes are stored, around the end or not. -/
theorem size_room (h : b.WellFormed) (hroom : b.isFull = false) :
    b.size < b.maximumSizeOfBuffer ∧
      (b.tail + b.size = b.head ∨ b.tail + b.size = b.maximumSizeOfBuffer + b.head) := by
  obtain ⟨hhead, htail, -⟩ := h
  rw [size_of_room hroom]
  split <;> omega

theorem isFull_eq_false (h : b.WellFormed) (hne : b.head ≠ b.tail) : b.isFull = false :=
  eq_false_of_ne_true fun hfull => hne (h.full hfull)

theorem size_le (h : b.WellFormed) : b.size ≤ b.maximumSizeOfBuffer := by
  rcases hcase : b.isFull with _ | _
  · exact (h.size_room hcase).1.le
  · exact (size_of_full hcase).le

theorem head_eq (h : b.WellFormed) :
    b.head = (b.tail + b.size) % b.maximumSizeOfBuffer := by
  rcases hcase : b.isFull with _ | _
  · obtain ⟨-, hsame | haround⟩ := h.size_room hcase
    · rw [hsame, Nat.mod_eq_of_lt h.head_lt]
    · rw [haround, Nat.add_mod_left, Nat.mod_eq_of_lt h.head_lt]
  · rw [size_of_full hcase, Nat.add_mod_right, Nat.mod_eq_of_lt h.tail_lt, h.full hcase]

end WellFormed

/-! ## Moving the pointers -/

theorem wrap_eq {i N : ℕ} (h : i < N) : (if i + 1 = N then 0 else i + 1) = (i + 1) % N := by
  split
  · rw [‹i + 1 = N›, Nat.mod_self]
  · rw [Nat.mod_eq_of_lt (by omega)]

@[simp] theorem advancePointer_max (b : CircularBuffer) :
    b.advancePointer.maximumSizeOfBuffer = b.maximumSizeOfBuffer := rfl

@[simp] theorem retreatPointer_max (b : CircularBuffer) :
    b.retreatPointer.maximumSizeOfBuffer = b.maximumSizeOfBuffer := rfl

namespace WellFormed

theorem advancePointer (h : b.WellFormed) : b.advancePointer.WellFormed := by
  obtain ⟨hhead, htail, -⟩ := h
  refine ⟨?_, ?_, fun hfull => (of_decide_eq_true hfull).symm⟩
  · show (if b.head + 1 = b.maximumSizeOfBuffer then 0 else b.head + 1) < b.maximumSizeOfBuffer
    split <;> omega
  · show (if b.isFull then if b.tail + 1 = b.maximumSizeOfBuffer then 0 else b.tail + 1
      else b.tail) < b.maximumSizeOfBuffer
    split
    · split <;> omega
    · exact htail

theorem retreatPointer (h : b.WellFormed) : b.retreatPointer.WellFormed := by
  obtain ⟨hhead, htail, -⟩ := h
  refine ⟨hhead, ?_, nofun⟩
  show (if b.tail + 1 = b.maximumSizeOfBuffer then 0 else b.tail + 1) < b.maximumSizeOfBuffer
  split <;> omega

theorem advancePointer_full (h : b.WellFormed) (hfull : b.isFull = true) :
    b.advancePointer.tail = (b.tail + 1) % b.maximumSizeOfBuffer ∧
      b.advancePointer.size = b.maximumSizeOfBuffer := by
  have hsame := h.full hfull
  constructor
  · rw [← wrap_eq h.tail_lt]
    simp [CircularBuffer.advancePointer, hfull]
  · apply size_of_full
    simp [CircularBuffer.advancePointer, hfull, hsame]

theorem advancePointer_room (h : b.WellFormed) (hroom : b.isFull = false) :
    b.advancePointer.tail = b.tail ∧ b.advancePointer.size = b.size + 1 := by
  have hlt := h.head_lt
  have hlt' := h.tail_lt
  have htail : b.advancePointer.tail = b.tail := by
    simp [CircularBuffer.advancePointer, hroom]
  have hhead : b.advancePointer.head =
      if b.head + 1 = b.maximumSizeOfBuffer then 0 else b.head + 1 := rfl
  obtain ⟨hsize, hstored⟩ := h.size_room hroom
  refine ⟨htail, ?_⟩
  rcases hcase : b.advancePointer.isFull with _ | _
  · have hapart : b.advancePointer.tail ≠ b.advancePointer.head := of_decide_eq_false hcase
    obtain ⟨hsize', hstored'⟩ := h.advancePointer.size_room hcase
    rw [advancePointer_max] at hsize' hstored'
    split at hhead <;> omega
  · have hsame := h.advancePointer.full hcase
    rw [size_of_full hcase, advancePointer_max]
    split at hhead <;> omega

theorem size_retreatPointer (h : b.WellFormed) (hpos : 0 < b.size) :
    b.retreatPointer.size = b.size - 1 := by
  have hlt := h.tail_lt
  have hhead : b.retreatPointer.head = b.head := rfl
  have htail : b.retreatPointer.tail =
      if b.tail + 1 = b.maximumSizeOfBuffer then 0 else b.tail + 1 := rfl
  obtain ⟨hsize', hstored'⟩ := h.retreatPointer.size_room rfl
  rw [retreatPointer_max] at hsize' hstored'
  rcases hcase : b.isFull with _ | _
  · obtain ⟨hsize, hstored⟩ := h.size_room hcase
    split at htail <;> omega
  · have hsame := h.full hcase
    have hsize := size_of_full hcase
    split at htail <;> omega

end WellFormed

/-! ## Writing, reading and clearing -/

/-- **A byte written** comes behind the stored ones, of which the oldest goes if
there was no room. -/
theorem WellFormed.writeByte (h : b.WellFormed) (x : Byte) :
    (b.writeByte x).WellFormed ∧
      (b.writeByte x).contents = (b.contents ++ [x]).rtake b.maximumSizeOfBuffer := by
  have hstored : WellFormed { b with buf := store b.buf b.head [x] } := ⟨h.1, h.2, h.3⟩
  refine ⟨hstored.advancePointer, ?_⟩
  cases hcase : b.isFull with
  | true =>
      obtain ⟨htail, hsize⟩ := hstored.advancePointer_full hcase
      have hpos : 0 < b.maximumSizeOfBuffer := Nat.zero_lt_of_lt h.tail_lt
      have hlen : b.size = b.maximumSizeOfBuffer := size_of_full hcase
      have hhead : b.head = b.tail % b.maximumSizeOfBuffer := by
        rw [Nat.mod_eq_of_lt h.tail_lt, h.full hcase]
      have hover : (b.contents ++ [x]).rtake b.maximumSizeOfBuffer = b.contents.drop 1 ++ [x] := by
        rw [List.rtake, List.length_append, contents_length, hlen, Nat.add_sub_cancel_left]
        exact List.drop_append_of_le_length (by rw [contents_length, hlen]; exact hpos)
      rw [hover, contents, contents, hlen, ← ring_store_full b.buf b.tail x hpos, ← hhead,
        ← ring_mod _ _ (b.tail + 1), CircularBuffer.writeByte, htail, hsize]
      rfl
  | false =>
      obtain ⟨htail, hsize⟩ := hstored.advancePointer_room hcase
      have hlt : b.size < b.maximumSizeOfBuffer := (h.size_room hcase).1
      have hfits : (b.contents ++ [x]).length ≤ b.maximumSizeOfBuffer := by
        rw [List.length_append, contents_length, List.length_singleton]
        exact hlt
      rw [rtake_of_length_le hfits, contents, contents, ← ring_store b.buf b.tail x hlt,
        ← h.head_eq, CircularBuffer.writeByte, htail, hsize]
      rfl

@[simp] theorem writeByte_max (b : CircularBuffer) (x : Byte) :
    (b.writeByte x).maximumSizeOfBuffer = b.maximumSizeOfBuffer := rfl

/-- **Writing** appends, and keeps the last bytes only. -/
theorem WellFormed.write (h : b.WellFormed) (bytes : List Byte) :
    (b.writeBufferToCircularBuffer bytes).1.WellFormed ∧
      (b.writeBufferToCircularBuffer bytes).1.maximumSizeOfBuffer = b.maximumSizeOfBuffer ∧
      (b.writeBufferToCircularBuffer bytes).1.contents =
        (b.contents ++ bytes).rtake b.maximumSizeOfBuffer := by
  unfold writeBufferToCircularBuffer
  induction bytes generalizing b with
  | nil =>
      refine ⟨h, rfl, ?_⟩
      rw [List.append_nil, rtake_of_length_le]
      · rfl
      · rw [contents_length]
        exact h.size_le
  | cons x bytes ih =>
      obtain ⟨hwell, hcontents⟩ := h.writeByte x
      obtain ⟨hwell', hmax', hcontents'⟩ := ih hwell
      refine ⟨hwell', hmax', hcontents'.trans ?_⟩
      rw [hcontents, writeByte_max, rtake_append_rtake, List.append_assoc, List.singleton_append]

theorem WellFormed.contents_eq_cons (h : b.WellFormed) (hpos : 0 < b.size) :
    b.contents = b.buf b.tail :: b.retreatPointer.contents := by
  have hsize := h.size_retreatPointer hpos
  have htail : b.retreatPointer.tail = (b.tail + 1) % b.maximumSizeOfBuffer := by
    rw [← wrap_eq h.tail_lt]
    rfl
  obtain ⟨n, hn⟩ := Nat.exists_eq_succ_of_ne_zero hpos.ne'
  rw [contents, hn, ring_succ, Nat.mod_eq_of_lt h.tail_lt, contents, hsize, htail, hn,
    retreatPointer_max, ring_mod]
  rfl

/-- Reading moves the tail and nothing else, and delivers as many bytes as asked
for, stored or not. -/
theorem WellFormed.getBytes (len : ℕ) (h : b.WellFormed) :
    (CircularBuffer.getBytes len b).1.WellFormed ∧
      (CircularBuffer.getBytes len b).1.maximumSizeOfBuffer = b.maximumSizeOfBuffer ∧
      (CircularBuffer.getBytes len b).2.length = len := by
  induction len generalizing b with
  | zero => exact ⟨h, rfl, rfl⟩
  | succ len ih =>
      obtain ⟨hwell, hmax, hlen⟩ := ih h.retreatPointer
      exact ⟨hwell, hmax, congrArg (· + 1) hlen⟩

/-- **Reading** what is stored takes the oldest bytes off. -/
theorem WellFormed.getBytes_contents {len : ℕ} (h : b.WellFormed) (hlen : len ≤ b.size) :
    (CircularBuffer.getBytes len b).2 = b.contents.take len ∧
      (CircularBuffer.getBytes len b).1.contents = b.contents.drop len := by
  induction len generalizing b with
  | zero => exact ⟨rfl, rfl⟩
  | succ len ih =>
      have hpos : 0 < b.size := Nat.zero_lt_of_lt hlen
      have hrest : len ≤ b.retreatPointer.size := by
        rw [h.size_retreatPointer hpos]
        omega
      obtain ⟨hdata, hcontents⟩ := ih h.retreatPointer hrest
      rw [h.contents_eq_cons hpos, List.take_succ_cons, List.drop_succ_cons, ← hdata, ← hcontents]
      exact ⟨rfl, rfl⟩

/-- As many bytes come as are asked for, and so they are the stored ones only
when there are that many. -/
theorem WellFormed.getBytes_eq_iff (h : b.WellFormed) (len : ℕ) :
    (CircularBuffer.getBytes len b).2 = b.contents.take len ↔ len ≤ b.size := by
  constructor
  · intro hdata
    have hlength := congrArg List.length hdata
    rw [(h.getBytes len).2.2, List.length_take, contents_length] at hlength
    omega
  · intro hlen
    exact (h.getBytes_contents hlen).1

theorem getBuffer_result (b : CircularBuffer) (len : ℕ) :
    (b.getBufferFromCircularBuffer len).2.2 = toInt8 len := by
  rw [getBufferFromCircularBuffer]

/-- **Clearing** leaves nothing. -/
theorem WellFormed.clear (h : b.WellFormed) :
    b.clearCircularBuffer.1.WellFormed ∧
      b.clearCircularBuffer.1.maximumSizeOfBuffer = b.maximumSizeOfBuffer ∧
      b.clearCircularBuffer.1.contents = [] := by
  have hpos : 0 < b.maximumSizeOfBuffer := Nat.zero_lt_of_lt h.tail_lt
  exact ⟨⟨hpos, hpos, nofun⟩, rfl, rfl⟩

/-! ## Doubling, field by field -/

@[simp] theorem double_tail (b : CircularBuffer) (heap : Mem Byte) :
    (b.doubleSizeOfCircularBuffer heap).tail = 0 := by
  unfold doubleSizeOfCircularBuffer
  split <;> rfl

@[simp] theorem double_max (b : CircularBuffer) (heap : Mem Byte) :
    (b.doubleSizeOfCircularBuffer heap).maximumSizeOfBuffer = 2 * b.maximumSizeOfBuffer := by
  unfold doubleSizeOfCircularBuffer
  split <;> exact Nat.mul_comm _ _

@[simp] theorem double_isFull (b : CircularBuffer) (heap : Mem Byte) :
    (b.doubleSizeOfCircularBuffer heap).isFull = b.isFull := by
  unfold doubleSizeOfCircularBuffer
  split <;> rfl

/-- The old `tail` does not count any more. -/
theorem double_head (b : CircularBuffer) (heap : Mem Byte) :
    (b.doubleSizeOfCircularBuffer heap).head =
      if b.head > b.tail then b.head else b.maximumSizeOfBuffer + b.head := by
  unfold doubleSizeOfCircularBuffer
  split <;> rfl

theorem double_buf_of_after (heap : Mem Byte) (h : b.head > b.tail) :
    (b.doubleSizeOfCircularBuffer heap).buf =
      store heap 0 (window b.buf b.tail (b.head - b.tail)) := by
  rw [doubleSizeOfCircularBuffer, if_pos h]

/-! ## The narrow results -/

theorem toInt32_eq {n : ℕ} (h : n < 2 ^ 31) : toInt32 n = n := by
  apply wrap_of_representable
  rw [representable_succ_iff]
  omega

theorem toInt8_eq_iff {n : ℕ} : toInt8 n = n ↔ n < 2 ^ 7 := by
  show wrap 8 n = n ↔ n < 2 ^ 7
  rw [wrap_eq_self_iff, representable_succ_iff]
  omega

end CircularBuffer
end Zroxy
