import Zroxy.Properties.CircularQueue

/-!
# Doubling the circular buffer

`zxy_double_size_of_circular_buffer` should move the queue into a block of twice
the capacity. It does so only while the queue begins at the start of the block
and has not reached its end (`doubled_iff`): the new `head` is computed when
`tail` is 0 already, the run behind a wrapped tail is copied with the length of
the whole block, and `is_full` stays as it is.
-/

namespace Zroxy

open OffsetMemory Runs

/-- The buffer holds as many bytes as the list, and they are read in its order. -/
def Delivers (s : CircularBuffer × List Byte) : Prop :=
  s.1.size = s.2.length ∧
    ∀ len, len ≤ s.2.length → (s.1.getBufferFromCircularBuffer len).2.1 = s.2.take len

/-- What doubling is for: the same queue with twice the capacity, now and in
whatever is done with it next. -/
structure Doubled (heap : Mem Byte) (b : CircularBuffer) : Prop where
  reads_inside : ∀ r ∈ b.doubleSizeReads, r.1 + r.2 ≤ b.maximumSizeOfBuffer
  max_eq : (b.doubleSizeOfCircularBuffer heap).maximumSizeOfBuffer = 2 * b.maximumSizeOfBuffer
  size_eq : (b.doubleSizeOfCircularBuffer heap).currentCircularBufferSize =
    b.currentCircularBufferSize
  contents_eq : (b.doubleSizeOfCircularBuffer heap).contents = b.contents
  behaves : ∀ ops, Always (stepBoth (2 * b.maximumSizeOfBuffer)) Delivers
    (b.doubleSizeOfCircularBuffer heap, b.contents) ops

variable {N : ℕ} {b : CircularBuffer} {queue : List Byte} {heap : Mem Byte}

theorem StandsFor.delivers_all (h : StandsFor N b queue) : Delivers (b, queue) :=
  ⟨h.size_eq, fun _ hlen => h.delivers hlen⟩

theorem standsFor_window (hlt : b.head < b.maximumSizeOfBuffer) (htail : b.tail = 0)
    (hroom : b.isFull = false) :
    StandsFor b.maximumSizeOfBuffer b (window b.buf 0 b.head) := by
  refine ⟨⟨hlt, by omega, fun hfull => ?_⟩, rfl, ?_⟩
  · rw [hroom] at hfull
    cases hfull
  · have hsize : b.size = b.head := by
      rw [CircularBuffer.size_of_room hroom, htail, if_pos (Nat.zero_le _), Nat.sub_zero]
    rw [CircularBuffer.contents, hsize, htail]
    exact ring_eq_window (by omega)

theorem standsFor_double (h : b.WellFormed) (htail : b.tail = 0) (hhead : 0 < b.head) :
    StandsFor (2 * b.maximumSizeOfBuffer) (b.doubleSizeOfCircularBuffer heap) b.contents := by
  have hlt := h.head_lt
  have hafter : b.head > b.tail := by omega
  have hroom : b.isFull = false := h.isFull_eq_false hafter.ne'
  have hhead' : (b.doubleSizeOfCircularBuffer heap).head = b.head := by
    rw [CircularBuffer.double_head, if_pos hafter]
  have hcopied : window (b.doubleSizeOfCircularBuffer heap).buf 0 b.head =
      window b.buf 0 b.head := by
    have hstored := window_store heap 0 (window b.buf 0 b.head)
    rw [window_length] at hstored
    rw [CircularBuffer.double_buf_of_after heap hafter, htail]
    exact hstored
  have hlt' : (b.doubleSizeOfCircularBuffer heap).head <
      (b.doubleSizeOfCircularBuffer heap).maximumSizeOfBuffer := by
    rw [hhead', CircularBuffer.double_max]
    omega
  have hnew := standsFor_window hlt' (b.double_tail heap) ((b.double_isFull heap).trans hroom)
  rw [hhead', hcopied, CircularBuffer.double_max] at hnew
  rwa [(standsFor_window hlt htail hroom).contents_eq]

theorem reads_inside_of_after (h : b.WellFormed) (hafter : b.head > b.tail) :
    ∀ r ∈ b.doubleSizeReads, r.1 + r.2 ≤ b.maximumSizeOfBuffer := by
  intro r hr
  rw [CircularBuffer.doubleSizeReads, if_pos hafter, List.mem_singleton] at hr
  subst hr
  have hlt := h.head_lt
  show b.tail + (b.head - b.tail) ≤ b.maximumSizeOfBuffer
  omega

/-- A queue that begins further on is not moved: from there the block is too
short, or the size comes out wrong. -/
theorem tail_eq_zero_of_doubled (h : b.WellFormed)
    (hreads : ∀ r ∈ b.doubleSizeReads, r.1 + r.2 ≤ b.maximumSizeOfBuffer)
    (hsize : (b.doubleSizeOfCircularBuffer heap).size = b.size) : b.tail = 0 := by
  rcases Nat.lt_or_ge b.tail b.head with hafter | hwrapped
  · have hroom : b.isFull = false := h.isFull_eq_false hafter.ne'
    have hroom' := (b.double_isFull heap).trans hroom
    rw [CircularBuffer.size_of_room hroom', CircularBuffer.size_of_room hroom,
      CircularBuffer.double_head, CircularBuffer.double_tail, if_pos hafter, if_pos hafter.le,
      if_pos (Nat.zero_le _)] at hsize
    omega
  · have hread := hreads (b.tail, b.maximumSizeOfBuffer) (by
      rw [CircularBuffer.doubleSizeReads, if_neg (Nat.not_lt.mpr hwrapped)]
      exact List.mem_cons_self)
    omega

/-- Doubled, an empty buffer gets the size of the old block, and a full one the
size of the new. -/
theorem head_pos_of_doubled (h : b.WellFormed) (htail : b.tail = 0)
    (hsize : (b.doubleSizeOfCircularBuffer heap).size = b.size) : 0 < b.head := by
  have hlt := h.head_lt
  rw [Nat.pos_iff_ne_zero]
  intro hhead
  have hnot : ¬ b.head > b.tail := by omega
  rcases hcase : b.isFull with _ | _
  · obtain ⟨hstored, -⟩ := h.size_room hcase
    have hcase' := (b.double_isFull heap).trans hcase
    rw [CircularBuffer.size_of_room hcase', CircularBuffer.double_head,
      CircularBuffer.double_tail, if_neg hnot, if_pos (Nat.zero_le _)] at hsize
    omega
  · have hcase' := (b.double_isFull heap).trans hcase
    rw [CircularBuffer.size_of_full hcase, CircularBuffer.size_of_full hcase',
      CircularBuffer.double_max] at hsize
    omega

/-- **Doubling, exactly.** In every state that operations lead to from a new
buffer, doubling preserves the queue if and only if `tail` is 0 and `head` is
not. -/
theorem doubled_iff (N : ℕ) (hpos : 1 ≤ N) (heap heap' : Mem Byte) (ops : List CircularOp) :
    Doubled heap' (afterOps (.createCircularBuffer heap N) ops) ↔
      (afterOps (.createCircularBuffer heap N) ops).tail = 0 ∧
        0 < (afterOps (.createCircularBuffer heap N) ops).head := by
  obtain ⟨hwell, -⟩ := afterOps_wellFormed (.create heap hpos) ops
  set b := afterOps (.createCircularBuffer heap N) ops
  constructor
  · rintro ⟨hreads, -, -, hcontents, -⟩
    have hsize := congrArg List.length hcontents
    rw [CircularBuffer.contents_length, CircularBuffer.contents_length] at hsize
    have htail := tail_eq_zero_of_doubled hwell hreads hsize
    exact ⟨htail, head_pos_of_doubled hwell htail hsize⟩
  · rintro ⟨htail, hhead⟩
    have hnew : StandsFor (2 * b.maximumSizeOfBuffer) (b.doubleSizeOfCircularBuffer heap')
        b.contents := standsFor_double hwell htail hhead
    refine ⟨reads_inside_of_after hwell (by omega), hnew.max_eq, ?_, hnew.contents_eq, ?_⟩
    · rw [CircularBuffer.currentCircularBufferSize, CircularBuffer.currentCircularBufferSize,
        hnew.size_eq, CircularBuffer.contents_length]
    · intro ops'
      have hrun := standsFor_run (s := (b.doubleSizeOfCircularBuffer heap', b.contents)) hnew ops'
      exact hrun.mono fun s hs => hs.delivers_all

theorem doubled_two_iff :
    Doubled (fun _ => 7) (afterOps (.createCircularBuffer (fun _ => 0) 2) [.write [65]]) ↔
      (afterOps (.createCircularBuffer (fun _ => 0) 2) [.write [65]]).tail = 0 ∧
        0 < (afterOps (.createCircularBuffer (fun _ => 0) 2) [.write [65]]).head :=
  doubled_iff 2 (by decide) _ _ _

/-- Two bytes written and one read: behind the byte that is queued, the new block
has one that `malloc` left. -/
theorem doubling_invents_byte :
    ¬ ∀ (N : ℕ) (heap heap' : Mem Byte) (ops : List CircularOp), 1 ≤ N →
      Doubled heap' (afterOps (.createCircularBuffer heap N) ops) := by
  intro h
  have hcontents :=
    (h 3 (fun _ => 0) (fun _ => 7) [.write [65, 66], .get 1] (by decide)).contents_eq
  exact absurd hcontents (by decide)

end Zroxy
