import Zroxy.Utils.BufferManager

/-!
# What a buffer manager really owns

`BufferManager` assumes that the block is as large as `max_size_of_buffer`
says. Here the sizes handed to `calloc` and `realloc` are compared with the
sizes recorded, over any sequence of the operations of `buffer_manager.c`.

The two growing operations disagree with themselves. `zxy_double_buffer_size`
asks for `(max - 1) * 2` bytes and records one more; the last byte it clears is
the one it did not ask for. `zxy_resize_to_prefer_buffer_size` rounds the size
it records up to `READ_BUF_SIZE`, but not the size it asks for. `sound_run_iff`
says that these are the only two ways to lose the invariant.
-/

namespace Zroxy

open OffsetMemory Runs

inductive BufferOp where
  | double
  | resize (preferSize : ℤ)
  | shouldResize
  | append (bytes : List Byte)
  | consume (nbytes : ℤ)
deriving DecidableEq

/-- The calls that ask for at least what they record. -/
def BufferOp.KeepsAllocation : BufferOp → Prop
  | .double => False
  | .resize preferSize => (readBufSize : ℤ) ≤ preferSize
  | _ => True

namespace BufferManager

def applyOp (b : BufferManager) : BufferOp → Except Empty BufferManager
  | .double => .ok b.doubleBufferSize
  | .resize preferSize => .ok (b.resizeToPreferBufferSize preferSize)
  | .shouldResize => .ok b.probed
  | .append bytes => .ok (b.appendBytes bytes)
  | .consume nbytes => .ok (b.consume nbytes)

/-- The recorded size is backed by the allocation, and so is every byte the
probe and the `memset`s have touched. -/
structure Sound (b : BufferManager) : Prop where
  max_le_allocated : b.maxSizeOfBuffer ≤ b.allocated
  touched : ∀ a ∈ b.accesses, a.kind = .probe ∨ a.kind = .clear → a.InAllocation

theorem Sound.malloc (heap : Mem Byte) :
    (mallocBufferManagerWithBufferSize heap (readBufSize + 1)).Sound :=
  ⟨le_refl _, by simp [mallocBufferManagerWithBufferSize]⟩

theorem Sound.touch {b : BufferManager} {k : AccessKind} {o l : ℤ} (h : b.Sound)
    (hin : k = .probe ∨ k = .clear → 0 ≤ o ∧ o + l ≤ b.allocated) :
    (b.touch k o l).Sound := by
  refine ⟨h.max_le_allocated, ?_⟩
  intro a ha hk
  rcases List.mem_append.mp ha with ha | ha
  · exact h.touched a ha hk
  · obtain rfl := List.mem_singleton.mp ha
    exact hin hk

/-- Doubling records one byte more than it asks for. -/
theorem not_sound_doubleBufferSize (b : BufferManager) : ¬ b.doubleBufferSize.Sound := by
  intro h
  have hle := h.max_le_allocated
  simp only [doubleBufferSize, touch] at hle
  omega

theorem resizeToPreferBufferSize_max (b : BufferManager) (p : ℤ) :
    (b.resizeToPreferBufferSize p).maxSizeOfBuffer = max p readBufSize := by
  unfold resizeToPreferBufferSize
  simp only
  split <;> simp only <;> omega

theorem resizeToPreferBufferSize_allocated (b : BufferManager) (p : ℤ) :
    (b.resizeToPreferBufferSize p).allocated = p := by
  unfold resizeToPreferBufferSize
  simp only
  split <;> split <;> rfl

theorem resizeToPreferBufferSize_accesses (b : BufferManager) (p : ℤ) :
    (b.resizeToPreferBufferSize p).accesses =
      if p > b.maxSizeOfBuffer then
        b.accesses ++ [⟨.clear, b.maxSizeOfBuffer, p - b.maxSizeOfBuffer, b.maxSizeOfBuffer, p⟩]
      else b.accesses := by
  unfold resizeToPreferBufferSize
  simp only
  split <;> split <;> rfl

/-- A resize stays sound exactly from `READ_BUF_SIZE` on. -/
theorem sound_resize_iff {b : BufferManager} {p : ℤ} (h : b.Sound)
    (hmax : (readBufSize : ℤ) ≤ b.maxSizeOfBuffer) :
    (b.resizeToPreferBufferSize p).Sound ↔ (readBufSize : ℤ) ≤ p := by
  constructor
  · intro hs
    have hle := hs.max_le_allocated
    rw [resizeToPreferBufferSize_max, resizeToPreferBufferSize_allocated] at hle
    omega
  · intro hp
    refine ⟨?_, ?_⟩
    · rw [resizeToPreferBufferSize_max, resizeToPreferBufferSize_allocated]
      omega
    · intro a ha hk
      rw [resizeToPreferBufferSize_accesses] at ha
      split at ha
      · -- the bytes cleared run from the old size to the new one
        rcases List.mem_append.mp ha with ha | ha
        · exact h.touched a ha hk
        · obtain rfl := List.mem_singleton.mp ha
          have h0 : (0 : ℤ) ≤ readBufSize := by decide
          exact ⟨le_trans h0 hmax, by simp⟩
      · exact h.touched a ha hk

/-- **One call**: the invariant survives exactly the calls that ask for what
they record. -/
theorem sound_applyOp_iff {b b' : BufferManager} {op : BufferOp} (h : b.Sound)
    (hmax : (readBufSize : ℤ) ≤ b.maxSizeOfBuffer) (hop : b.applyOp op = .ok b') :
    b'.Sound ↔ op.KeepsAllocation := by
  have h1 : (1 : ℤ) ≤ readBufSize := by decide
  cases op with
  | double =>
      cases hop
      exact iff_of_false (not_sound_doubleBufferSize b) id
  | resize p =>
      cases hop
      exact sound_resize_iff h hmax
  | shouldResize =>
      cases hop
      refine iff_of_true (h.touch fun _ => ?_) trivial
      have hle := h.max_le_allocated
      constructor <;> omega
  | append bytes =>
      cases hop
      refine iff_of_true ?_ trivial
      have hcopy := h.touch (k := .copy) (o := b.currentBufferPtr) (l := bytes.length)
        (fun hk => by simp at hk)
      exact ⟨hcopy.1, hcopy.2⟩
  | consume n =>
      cases hop
      exact iff_of_true ⟨h.1, h.2⟩ trivial

/-- The recorded size never drops below `READ_BUF_SIZE`. -/
theorem readBufSize_le_applyOp {b b' : BufferManager} {op : BufferOp}
    (hmax : (readBufSize : ℤ) ≤ b.maxSizeOfBuffer) (hop : b.applyOp op = .ok b') :
    (readBufSize : ℤ) ≤ b'.maxSizeOfBuffer := by
  cases op with
  | double =>
      have h1 : (1 : ℤ) ≤ readBufSize := by decide
      cases hop
      simp only [doubleBufferSize_max]
      omega
  | resize p =>
      cases hop
      rw [resizeToPreferBufferSize_max]
      exact le_max_right _ _
  | shouldResize => cases hop; exact hmax
  | append bytes => cases hop; exact hmax
  | consume n => cases hop; exact hmax

theorem eachStep_keepsAllocation_iff (ops : List BufferOp) : ∀ b : BufferManager,
    EachStep applyOp (fun _ op => op.KeepsAllocation) b ops ↔
      ∀ op ∈ ops, op.KeepsAllocation := by
  induction ops with
  | nil => simp [EachStep]
  | cons op ops ih =>
      intro b
      obtain ⟨b', hb'⟩ : ∃ b', b.applyOp op = .ok b' := by cases op <;> exact ⟨_, rfl⟩
      simp [EachStep, hb', ih]

/-- **The representation invariant, exactly.** From a fresh manager a sequence
of calls keeps the recorded size within the allocation, and every byte the
calls touch inside it, if and only if it never doubles and never resizes below
`READ_BUF_SIZE`. -/
theorem sound_run_iff (heap : Mem Byte) (ops : List BufferOp) :
    Always applyOp Sound (mallocBufferManagerWithBufferSize heap (readBufSize + 1)) ops ↔
      ∀ op ∈ ops, op.KeepsAllocation := by
  rw [← eachStep_keepsAllocation_iff ops
    (mallocBufferManagerWithBufferSize heap (readBufSize + 1))]
  refine always_iff_eachStep (I := fun b => (readBufSize : ℤ) ≤ b.maxSizeOfBuffer)
    ?_ ?_ ?_ (Sound.malloc heap) ops
  · intro b op b' hmax hs hop
    exact sound_applyOp_iff hs hmax hop
  · intro b op b' hmax _ hop _
    exact readBufSize_le_applyOp hmax hop
  · simp [mallocBufferManagerWithBufferSize]

/-- The first doubling of a fresh manager: 8192 bytes asked for, 8193 recorded,
and the byte at offset 8192 cleared. -/
theorem double_leaves_the_allocation :
    ¬ ∀ (heap : Mem Byte) (ops : List BufferOp),
      Always applyOp Sound (mallocBufferManagerWithBufferSize heap (readBufSize + 1)) ops := by
  intro h
  have hrun := h (fun _ => 0) [.double]
  exact not_sound_doubleBufferSize _ (hrun.2 _ rfl)

end BufferManager
end Zroxy
