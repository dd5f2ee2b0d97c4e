import Zroxy.Utils.CircularBuffer

/-!
# The circular buffer as a queue

The specification is a list that grows at its end, loses its oldest bytes when it
gets longer than the capacity, and is read from its front. `StandsFor` relates a
buffer to the list it stands for, every operation keeps it, and so a buffer of
any capacity mirrors its list along every run (`mirrors_run`).

Two of the observers fall short of that. `zxy_is_circular_buffer_empty` does not
look at `is_full`, and takes a full buffer for an empty one
(`emptyAgrees_run_iff`). `zxy_get_buffer_from_circular_buffer` does not look at
the size, and returns what it was asked for, in eight bits
(`reportsDelivered_iff`).
-/

namespace Zroxy

open OffsetMemory Runs

inductive CircularOp where
  | write (bytes : List Byte)
  | get (len : ℕ)
  | clear
deriving DecidableEq

namespace CircularOp

def onBuffer (b : CircularBuffer) : CircularOp → CircularBuffer
  | .write bytes => (b.writeBufferToCircularBuffer bytes).1
  | .get len => (b.getBufferFromCircularBuffer len).1
  | .clear => b.clearCircularBuffer.1

/-- The specification: a list of which the last `N` bytes are kept. -/
def onQueue (N : ℕ) (queue : List Byte) : CircularOp → List Byte
  | .write bytes => (queue ++ bytes).rtake N
  | .get len => queue.drop len
  | .clear => []

/-- No more is read than is stored. -/
def WithinStored (queue : List Byte) : CircularOp → Prop
  | .write _ => True
  | .get len => len ≤ queue.length
  | .clear => True

instance (queue : List Byte) (op : CircularOp) : Decidable (op.WithinStored queue) := by
  cases op <;> (unfold WithinStored; infer_instance)

end CircularOp

/-- Why a step is not taken: it would read more than is stored. -/
inductive Refused where
  | overlong

def stepBoth (N : ℕ) (s : CircularBuffer × List Byte) (op : CircularOp) :
    Except Refused (CircularBuffer × List Byte) :=
  if op.WithinStored s.2 then .ok (op.onBuffer s.1, op.onQueue N s.2) else .error .overlong

/-- A buffer of capacity `N` that holds the bytes of the list. -/
structure StandsFor (N : ℕ) (b : CircularBuffer) (queue : List Byte) : Prop where
  wellFormed : b.WellFormed
  max_eq : b.maximumSizeOfBuffer = N
  contents_eq : b.contents = queue

variable {N : ℕ} {b : CircularBuffer} {queue : List Byte} {op : CircularOp}
  {s s' : CircularBuffer × List Byte}

theorem standsFor_create (heap : Mem Byte) (h : 1 ≤ N) :
    StandsFor N (.createCircularBuffer heap N) [] :=
  ⟨.create heap h, rfl, rfl⟩

theorem StandsFor.size_eq (h : StandsFor N b queue) : b.size = queue.length := by
  rw [← h.contents_eq, CircularBuffer.contents_length]

theorem StandsFor.length_le (h : StandsFor N b queue) : queue.length ≤ N := by
  rw [← h.size_eq, ← h.max_eq]
  exact h.wellFormed.size_le

/-- **One operation** on both. -/
theorem StandsFor.step (h : StandsFor N b queue) (hop : op.WithinStored queue) :
    StandsFor N (op.onBuffer b) (op.onQueue N queue) := by
  obtain ⟨hwell, rfl, rfl⟩ := h
  cases op with
  | write bytes =>
      obtain ⟨hwell', hmax, hcontents⟩ := hwell.write bytes
      exact ⟨hwell', hmax, hcontents⟩
  | get len =>
      have hlen : len ≤ b.size := by
        rw [← CircularBuffer.contents_length]
        exact hop
      obtain ⟨hwell', hmax, -⟩ := hwell.getBytes len
      exact ⟨hwell', hmax, (hwell.getBytes_contents hlen).2⟩
  | clear =>
      obtain ⟨hwell', hmax, hcontents⟩ := hwell.clear
      exact ⟨hwell', hmax, hcontents⟩

theorem stepBoth_ok (h : stepBoth N s op = .ok s') :
    op.WithinStored s.2 ∧ s' = (op.onBuffer s.1, op.onQueue N s.2) := by
  unfold stepBoth at h
  split at h
  · cases h
    exact ⟨‹_›, rfl⟩
  · cases h

theorem standsFor_run (h : StandsFor N s.1 s.2) (ops : List CircularOp) :
    Always (stepBoth N) (fun s => StandsFor N s.1 s.2) s ops := by
  refine always_of_invariant (I := fun s : CircularBuffer × List Byte => StandsFor N s.1 s.2) ?_
    h ops
  intro s op s' hs hstep
  obtain ⟨hop, rfl⟩ := stepBoth_ok hstep
  exact hs.step hop

/-! ## What is seen of the list -/

/-- The buffer answers like the list: its indices are inside the block, its size
is the length, and whatever of it is read comes off the front. -/
structure Mirrors (N : ℕ) (s : CircularBuffer × List Byte) : Prop where
  head_lt : s.1.head < N
  tail_lt : s.1.tail < N
  size_eq : s.1.currentCircularBufferSize = s.2.length
  delivers : ∀ len, len ≤ s.2.length →
    (s.1.getBufferFromCircularBuffer len).2.1 = s.2.take len ∧
      StandsFor N (s.1.getBufferFromCircularBuffer len).1 (s.2.drop len)

theorem StandsFor.delivers (h : StandsFor N b queue) {len : ℕ} (hlen : len ≤ queue.length) :
    (b.getBufferFromCircularBuffer len).2.1 = queue.take len := by
  rw [← h.size_eq] at hlen
  rw [← h.contents_eq]
  exact (h.wellFormed.getBytes_contents hlen).1

theorem StandsFor.currentSize_eq (h : StandsFor N b queue) (hN : N < 2 ^ 31) :
    b.currentCircularBufferSize = queue.length := by
  have hle := h.length_le
  rw [CircularBuffer.currentCircularBufferSize, h.size_eq]
  exact CircularBuffer.toInt32_eq (by omega)

theorem StandsFor.mirrors (h : StandsFor N b queue) (hN : N < 2 ^ 31) : Mirrors N (b, queue) where
  head_lt := h.max_eq ▸ h.wellFormed.head_lt
  tail_lt := h.max_eq ▸ h.wellFormed.tail_lt
  size_eq := h.currentSize_eq hN
  delivers len hlen :=
    have hop : (CircularOp.get len).WithinStored queue := hlen
    ⟨h.delivers hlen, h.step hop⟩

/-- **An overwriting queue.** From a new buffer of any capacity, through any run
of writes, of reads of what is stored and of clearings, the buffer mirrors the
list that keeps the last bytes written. -/
theorem mirrors_run (N : ℕ) (hpos : 1 ≤ N) (hN : N < 2 ^ 31) (heap : Mem Byte)
    (ops : List CircularOp) :
    Always (stepBoth N) (Mirrors N) (.createCircularBuffer heap N, []) ops := by
  have hrun := standsFor_run (s := (.createCircularBuffer heap N, []))
    (standsFor_create heap hpos) ops
  exact hrun.mono fun s hs => hs.mirrors hN

/-- The smallest buffer, written to beyond its end. -/
theorem mirrors_run_one :
    Always (stepBoth 1) (Mirrors 1) (.createCircularBuffer (fun _ => 0) 1, [])
      [.write [65, 66], .get 1, .write [67], .clear] :=
  mirrors_run 1 (by decide) (by decide) _ _

/-! ## Emptiness -/

/-- The two observers agree: empty is what has size 0. -/
def EmptyAgrees (s : CircularBuffer × List Byte) : Prop :=
  s.1.isCircularBufferEmpty = 1 ↔ s.1.currentCircularBufferSize = 0

/-- A write leaves room for another byte. -/
def LeavesRoom (s : CircularBuffer × List Byte) : CircularOp → Prop
  | .write bytes => s.2.length + bytes.length < s.1.maximumSizeOfBuffer
  | .get _ => True
  | .clear => True

/-- The observers agree on every buffer that is not full, and on no full one. -/
theorem StandsFor.emptyAgrees_iff (h : StandsFor N b queue) (hN : N < 2 ^ 31) :
    EmptyAgrees (b, queue) ↔ queue.length < N := by
  have hwell := h.wellFormed
  have hhead := hwell.head_lt
  have htail := hwell.tail_lt
  have hempty : EmptyAgrees (b, queue) ↔ (b.head = b.tail ↔ queue.length = 0) := by
    unfold EmptyAgrees CircularBuffer.isCircularBufferEmpty
    rw [h.currentSize_eq hN]
    simp
  rw [hempty, ← h.size_eq, ← h.max_eq]
  rcases hcase : b.isFull with _ | _
  · obtain ⟨hsize, hstored⟩ := hwell.size_room hcase
    omega
  · have hsame := hwell.full hcase
    have hsize := CircularBuffer.size_of_full hcase
    omega

/-- **Emptiness and size, exactly.** Along a run from a new buffer the two agree
in every state if and only if no write fills the buffer. -/
theorem emptyAgrees_run_iff (N : ℕ) (hpos : 1 ≤ N) (hN : N < 2 ^ 31) (heap : Mem Byte)
    (ops : List CircularOp) :
    Always (stepBoth N) EmptyAgrees (.createCircularBuffer heap N, []) ops ↔
      EachStep (stepBoth N) LeavesRoom (.createCircularBuffer heap N, []) ops := by
  have hnew := standsFor_create heap hpos
  refine always_iff_eachStep (I := fun s => StandsFor N s.1 s.2) ?_ ?_ hnew
    ((hnew.emptyAgrees_iff hN).mpr hpos) ops
  · intro s op s' hs hP hstep
    have hroom := (hs.emptyAgrees_iff hN).mp hP
    obtain ⟨hop, rfl⟩ := stepBoth_ok hstep
    rw [(hs.step hop).emptyAgrees_iff hN]
    cases op with
    | write bytes =>
        unfold LeavesRoom CircularOp.onQueue
        rw [hs.max_eq, length_rtake, List.length_append]
        omega
    | get len =>
        refine iff_of_true ?_ trivial
        rw [CircularOp.onQueue, List.length_drop]
        omega
    | clear => exact iff_of_true hpos trivial
  · intro s op s' hs _ hstep _
    obtain ⟨hop, rfl⟩ := stepBoth_ok hstep
    exact hs.step hop

theorem emptyAgrees_run_iff_two :
    Always (stepBoth 2) EmptyAgrees (.createCircularBuffer (fun _ => 0) 2, []) [.write [65]] ↔
      EachStep (stepBoth 2) LeavesRoom (.createCircularBuffer (fun _ => 0) 2, []) [.write [65]] :=
  emptyAgrees_run_iff 2 (by decide) (by decide) _ _

/-- One byte fills a buffer of one, which is empty then and has size 1. -/
theorem full_is_empty :
    ¬ ∀ (N : ℕ) (heap : Mem Byte) (ops : List CircularOp), 1 ≤ N → N < 2 ^ 31 →
      Always (stepBoth N) EmptyAgrees (.createCircularBuffer heap N, []) ops := by
  intro h
  have hrun := h 1 (fun _ => 0) [.write [65]] (by decide) (by decide)
  have hagrees : EmptyAgrees _ := hrun.2 _ rfl
  exact absurd (hagrees.mp rfl) (by decide)

/-! ## Reading -/

/-- The state after some operations, reads of any length among them. -/
def afterOps (b : CircularBuffer) (ops : List CircularOp) : CircularBuffer :=
  ops.foldl CircularOp.onBuffer b

theorem afterOps_wellFormed (h : b.WellFormed) (ops : List CircularOp) :
    (afterOps b ops).WellFormed ∧
      (afterOps b ops).maximumSizeOfBuffer = b.maximumSizeOfBuffer := by
  induction ops generalizing b with
  | nil => exact ⟨h, rfl⟩
  | cons op ops ih =>
      have hop : (op.onBuffer b).WellFormed ∧
          (op.onBuffer b).maximumSizeOfBuffer = b.maximumSizeOfBuffer := by
        cases op with
        | write bytes =>
            obtain ⟨hwell, hmax, -⟩ := h.write bytes
            exact ⟨hwell, hmax⟩
        | get len =>
            obtain ⟨hwell, hmax, -⟩ := h.getBytes len
            exact ⟨hwell, hmax⟩
        | clear =>
            obtain ⟨hwell, hmax, -⟩ := h.clear
            exact ⟨hwell, hmax⟩
      obtain ⟨hwell, hmax⟩ := ih hop.1
      exact ⟨hwell, hmax.trans hop.2⟩

/-- A read delivers the oldest bytes, as many as asked for and stored, says how
many these were, and leaves the others. -/
structure ReportsDelivered (b : CircularBuffer) (len : ℕ) : Prop where
  delivered : (b.getBufferFromCircularBuffer len).2.1 = b.contents.take len
  returned : (b.getBufferFromCircularBuffer len).2.2 = min (len : ℤ) b.currentCircularBufferSize
  left : (b.getBufferFromCircularBuffer len).1.contents = b.contents.drop len
  left_size : (b.getBufferFromCircularBuffer len).1.currentCircularBufferSize =
    b.currentCircularBufferSize - min (len : ℤ) b.currentCircularBufferSize

/-- **What a read reports, exactly.** In every state that operations lead to from
a new buffer, a read reports what it delivers if and only if no more is asked for
than is stored, and the number fits an `int8_t`. -/
theorem reportsDelivered_iff (N : ℕ) (hpos : 1 ≤ N) (hN : N < 2 ^ 31) (heap : Mem Byte)
    (ops : List CircularOp) (len : ℕ) :
    ReportsDelivered (afterOps (.createCircularBuffer heap N) ops) len ↔
      len ≤ (afterOps (.createCircularBuffer heap N) ops).contents.length ∧ len < 2 ^ 7 := by
  obtain ⟨hwell, hmax⟩ := afterOps_wellFormed (.create heap hpos) ops
  set b := afterOps (.createCircularBuffer heap N) ops
  have hb : StandsFor N b b.contents := ⟨hwell, hmax, rfl⟩
  have hsize := hb.currentSize_eq hN
  rw [CircularBuffer.contents_length] at hsize ⊢
  constructor
  · rintro ⟨hdelivered, hreturned, -, -⟩
    have hlen : len ≤ b.size := (hwell.getBytes_eq_iff len).mp hdelivered
    rw [hsize, min_eq_left (Nat.cast_le.mpr hlen), CircularBuffer.getBuffer_result] at hreturned
    exact ⟨hlen, CircularBuffer.toInt8_eq_iff.mp hreturned⟩
  · rintro ⟨hlen, hnarrow⟩
    have hle : (len : ℤ) ≤ b.currentCircularBufferSize := by
      rw [hsize]
      exact Nat.cast_le.mpr hlen
    obtain ⟨hdelivered, hleft⟩ := hwell.getBytes_contents hlen
    have hop : (CircularOp.get len).WithinStored b.contents := by
      show len ≤ b.contents.length
      rw [CircularBuffer.contents_length]
      exact hlen
    have hsize' := (hb.step hop).currentSize_eq hN
    refine ⟨hdelivered, ?_, hleft, ?_⟩
    · rw [min_eq_left hle, CircularBuffer.getBuffer_result]
      exact CircularBuffer.toInt8_eq_iff.mpr hnarrow
    · rw [min_eq_left hle, hsize]
      refine hsize'.trans ?_
      rw [CircularOp.onQueue, List.length_drop, CircularBuffer.contents_length]
      omega

theorem reportsDelivered_two_iff :
    ReportsDelivered (afterOps (.createCircularBuffer (fun _ => 0) 2) [.write [65, 66]]) 1 ↔
      1 ≤ (afterOps (.createCircularBuffer (fun _ => 0) 2)
        [.write [65, 66]]).contents.length ∧ 1 < 2 ^ 7 :=
  reportsDelivered_iff 2 (by decide) (by decide) _ _ 1

/-- From an empty buffer one byte is delivered, and reported. -/
theorem empty_buffer_delivers :
    ¬ ∀ (N : ℕ) (heap : Mem Byte) (ops : List CircularOp) (len : ℕ), 1 ≤ N → N < 2 ^ 31 →
      ReportsDelivered (afterOps (.createCircularBuffer heap N) ops) len := by
  intro h
  have hdelivered := (h 1 (fun _ => 0) [] 1 (by decide) (by decide)).delivered
  exact absurd hdelivered (by decide)

end Zroxy
