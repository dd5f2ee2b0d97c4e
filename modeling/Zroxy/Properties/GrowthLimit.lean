import Mathlib.Algebra.Order.Ring.Int
import Zroxy.Utils.BufferSizes

/-!
# How large a queue can grow

The buffer of a queue is created with `READ_BUF_SIZE + 1` bytes and only ever
doubled, so its size is `READ_BUF_SIZE * 2 ^ k + 1`. In an `int` this goes on up
to `2 ^ 30 + 1`; one doubling more gives `1 - 2 ^ 31`, the next one 1, and from
there on the size stays 1. A loop that asks for more than `2 ^ 30 + 1` bytes goes
through all of these and never ends (`growth_never_ends`).

`makesRoom_iff` says exactly when the resize check and the loop do their work.
-/

namespace Zroxy
namespace BufferManager

open MachineInt Loops

/-- The resize check and the loop end with room for `n` more bytes, and no size is
computed on the way that an `int` cannot hold. -/
structure MakesRoom (b : BufferManager) (n : ℤ) : Prop where
  ends : ∃ t, Ends (lacksRoom32 n) doubleBufferSize32 b.growIfFull32 t ∧
    t.currentBufferPtr + n ≤ t.maxSizeOfBuffer
  check_exact : b.lastIndex.Exact 32 ∧ (b.shouldResizeBuffer32 = true → b.doubledSize.Exact 32)
  loop_exact : ∀ r, Visits (lacksRoom32 n) doubleBufferSize32 b.growIfFull32 r →
    (r.demand n).Exact 32 ∧ (lacksRoom32 n r = true → r.doubledSize.Exact 32)

/-- The sizes a queue goes through, with those behind the last one an `int` can
hold. -/
inductive GrowthSize : ℤ → Prop where
  | doubled (j : ℕ) (h : j ≤ 18) : GrowthSize (readBufSize * 2 ^ j + 1)
  | wrapped : GrowthSize (1 - 2 ^ 31)
  | stuck : GrowthSize 1

variable {b : BufferManager} {n : ℤ} {k : ℕ}

theorem readBufSize_eq : ((readBufSize : ℕ) : ℤ) = 4096 := rfl

theorem GrowthSize.of_representable (h : Representable 32 (readBufSize * 2 ^ k + 1)) :
    GrowthSize (readBufSize * 2 ^ k + 1) := by
  refine .doubled k ?_
  rw [representable_int_iff, readBufSize_eq] at h
  by_contra hk
  have hpow : (2 : ℤ) ^ 19 ≤ 2 ^ k := pow_le_pow_right₀ (by decide) (by omega)
  omega

theorem GrowthSize.le (h : GrowthSize n) : n ≤ 2 ^ 30 + 1 := by
  cases h with
  | doubled j hj =>
      have hpow : (2 : ℤ) ^ j ≤ 2 ^ 18 := pow_le_pow_right₀ (by decide) hj
      rw [readBufSize_eq]
      omega
  | wrapped => decide
  | stuck => decide

/-- **One doubling** leads from one of these sizes to another. -/
theorem GrowthSize.double (h : GrowthSize b.maxSizeOfBuffer) :
    GrowthSize b.doubleBufferSize32.maxSizeOfBuffer := by
  generalize hmax : b.maxSizeOfBuffer = size at h
  have hdoubled : b.doubleBufferSize32.maxSizeOfBuffer =
      wrap 32 (wrap 32 (wrap 32 (size - 1) * 2) + 1) := by
    rw [← hmax]
    rfl
  cases h with
  | doubled j hj =>
      rcases hj.lt_or_eq with hj | rfl
      · -- below the last size the doubling is the exact one
        have hpow : (2 : ℤ) ^ j ≤ 2 ^ 17 := pow_le_pow_right₀ (by decide) (by omega)
        have hpos : (0 : ℤ) < 2 ^ j := Int.pow_pos (by decide)
        have hsize : b.doubleBufferSize32.maxSizeOfBuffer = readBufSize * 2 ^ (j + 1) + 1 := by
          rw [readBufSize_eq] at hmax ⊢
          rw [doubleBufferSize32_eq (by omega) (by omega), doubleBufferSize_max, hmax, pow_succ]
          omega
        rw [hsize]
        exact .doubled (j + 1) hj
      · rw [hdoubled]
        exact .wrapped
  | wrapped =>
      rw [hdoubled]
      exact .stuck
  | stuck =>
      rw [hdoubled]
      exact .stuck

theorem GrowthSize.growIfFull32 (h : GrowthSize b.maxSizeOfBuffer) :
    GrowthSize b.growIfFull32.maxSizeOfBuffer := by
  unfold BufferManager.growIfFull32
  simp only
  split
  · exact GrowthSize.double (b := b.touch .probe (b.lastIndex.result 32) 1) h
  · exact h

theorem growIfFull32_ptr (b : BufferManager) :
    b.growIfFull32.currentBufferPtr = b.currentBufferPtr := by
  unfold growIfFull32
  simp only
  split <;> rfl

theorem BelowLimit.makesRoom (h : b.BelowLimit n)
    (hfull : b.shouldResizeBuffer = true → b.maxSizeOfBuffer ≤ 2 ^ 30) : b.MakesRoom n := by
  have hone : 1 ≤ b.maxSizeOfBuffer := h.sized.one_le_max
  have hgrown := h.growIfFull hfull
  have hfuel : b.growIfFull.currentBufferPtr + n ≤ b.growIfFull.maxSizeOfBuffer +
      (b.growIfFull.currentBufferPtr + n).toNat := by
    have htwo := hgrown.sized.two_le_max
    omega
  have hcheck := growIfFull32_eq hone h.max_representable hfull
  constructor
  · rw [hcheck]
    refine ⟨_, hgrown.ends hfuel, ?_⟩
    rw [growUntilFits_ptr]
    exact growUntilFits_fits hgrown.sized hfuel
  · refine ⟨exact_lastIndex hone h.max_representable, ?_⟩
    rw [shouldResizeBuffer32_eq hone h.max_representable]
    exact fun h' => (exact_doubledSize_iff hone h.max_representable).mpr (hfull h')
  · rw [hcheck]
    intro r hr
    have hbelow := hgrown.visits hr
    refine ⟨hbelow.exact_demand, fun hroom => ?_⟩
    exact (exact_doubledSize_iff hbelow.sized.one_le_max
      hbelow.max_representable).mpr (hbelow.max_le hroom)

/-- **Past the limit the loop never ends**: the sizes it goes through are all too
small. -/
theorem growth_never_ends {t : BufferManager} (h : GrowthSize b.maxSizeOfBuffer)
    (hsum : Representable 32 (b.currentBufferPtr + n))
    (hlimit : 2 ^ 30 + 1 < b.currentBufferPtr + n) :
    ¬ Ends (lacksRoom32 n) doubleBufferSize32 b t := by
  apply not_ends_of_invariant
    (I := fun r => GrowthSize r.maxSizeOfBuffer ∧ r.currentBufferPtr = b.currentBufferPtr)
  · rintro r ⟨hr, hptr⟩
    have hle := hr.le
    have hexact : (r.demand n).Exact 32 := by rwa [exact_demand_iff, hptr]
    unfold lacksRoom32
    rw [hexact.result_eq, demand_value, hptr, decide_eq_true_eq]
    omega
  · rintro r ⟨hr, hptr⟩
    exact ⟨hr.double, hptr⟩
  · exact ⟨h, rfl⟩

/-- **Growing, exactly.** The check and the loop make room for `n` more bytes in
32-bit arithmetic if and only if a buffer of `2 ^ 30 + 1` bytes is not found full,
and no more than that is asked for. -/
theorem makesRoom_iff (b : BufferManager) (k : ℕ) (n : ℤ)
    (hmax : b.maxSizeOfBuffer = readBufSize * 2 ^ k + 1)
    (hint : Representable 32 b.maxSizeOfBuffer) (h0 : 0 ≤ b.currentBufferPtr)
    (hle : b.currentBufferPtr ≤ b.maxSizeOfBuffer) (hn : 0 ≤ n)
    (hsum : Representable 32 (b.currentBufferPtr + n)) :
    b.MakesRoom n ↔
      (b.shouldResizeBuffer = true → b.maxSizeOfBuffer < 2 ^ 30 + 1) ∧
        b.currentBufferPtr + n ≤ 2 ^ 30 + 1 := by
  have hsize : GrowthSize b.maxSizeOfBuffer := by
    rw [hmax] at hint ⊢
    exact .of_representable hint
  have hpow : (1 : ℤ) ≤ 2 ^ k := Int.pow_pos (by decide)
  have hsized : b.WellSized := ⟨h0, hle, by rw [hmax, readBufSize_eq]; omega⟩
  have hone : 1 ≤ b.maxSizeOfBuffer := hsized.one_le_max
  constructor
  · rintro ⟨⟨t, hends, -⟩, ⟨-, hcheck⟩, -⟩
    constructor
    · intro hfull
      rw [shouldResizeBuffer32_eq hone hint] at hcheck
      exact Int.lt_add_one_of_le ((exact_doubledSize_iff hone hint).mp (hcheck hfull))
    · by_contra hlimit
      refine growth_never_ends hsize.growIfFull32 ?_ ?_ hends <;> rw [growIfFull32_ptr]
      · exact hsum
      · exact not_le.mp hlimit
  · rintro ⟨hfull, hlimit⟩
    have hbelow : b.BelowLimit n := ⟨hsized, hint, hn, hlimit⟩
    exact hbelow.makesRoom fun h => Int.lt_add_one_iff.mp (hfull h)

/-- A new buffer, and one byte. -/
theorem makesRoom_fresh :
    (mallocBufferManagerWithBufferSize (fun _ => 0) (readBufSize + 1)).MakesRoom 1 :=
  (makesRoom_iff _ 0 1 rfl (by decide) (le_refl _) (by decide) (by decide) (by decide)).mpr
    ⟨fun _ => by decide, by decide⟩

/-- A full queue of `2 ^ 30 + 1` bytes, and one byte more. -/
theorem one_byte_past_the_limit :
    ¬ ∀ (b : BufferManager) (k : ℕ) (n : ℤ), b.maxSizeOfBuffer = readBufSize * 2 ^ k + 1 →
      Representable 32 b.maxSizeOfBuffer → 0 ≤ b.currentBufferPtr →
      b.currentBufferPtr ≤ b.maxSizeOfBuffer → 0 ≤ n →
      Representable 32 (b.currentBufferPtr + n) → b.MakesRoom n := by
  intro h
  set b : BufferManager := ⟨fun _ => 0, 2 ^ 30 + 1, 2 ^ 30 + 1, 2 ^ 30, []⟩
  obtain ⟨⟨t, hends, -⟩, -⟩ := h b 18 1 (by decide) (by decide) (by decide) (by decide) (by decide)
    (by decide)
  have hsize : GrowthSize b.maxSizeOfBuffer := .doubled 18 (le_refl _)
  exact growth_never_ends hsize.growIfFull32 (by decide) (by decide) hends

end BufferManager
end Zroxy
