import Zroxy.Parsers.StringComp

/-!
# `fast_compare` against the byte comparison

What `fast_compare` is for is the comparison of the first `len` bytes one by one:
0 where they agree, the difference of the bytes at the first place where they do
not. It returns that for every length but one. For `len` a word the word loop is
skipped, and the byte loop begins behind the word (`comparesBytes_iff`).

For more than a word it reads one word too many: the block count is that of the
whole words and one more, and the byte loop, which is there for the rest, gets
nothing to do. So the comparison leaves the `len` bytes unless it ends before
(`readsBelow_iff`).
-/

namespace Zroxy

variable {ptr0 ptr1 : ℕ → Byte} {len : ℕ}

/-! ## The result -/

/-- The result is that of comparing the first `len` bytes one by one, and what is
behind them makes no difference. -/
structure ComparesBytes (ptr0 ptr1 : ℕ → Byte) (len : ℕ) : Prop where
  zero_iff : fastCompare ptr0 ptr1 len = 0 ↔ ∀ k, k < len → ptr0 k = ptr1 k
  first_difference : ∀ k, k < len → (∀ j, j < k → ptr0 j = ptr1 j) → ptr0 k ≠ ptr1 k →
    fastCompare ptr0 ptr1 len = ((ptr0 k).toNat : ℤ) - ((ptr1 k).toNat : ℤ)
  behind : ∀ ptr0' ptr1' : ℕ → Byte, (∀ k, k < len → ptr0 k = ptr0' k) →
    (∀ k, k < len → ptr1 k = ptr1' k) → fastCompare ptr0' ptr1' len = fastCompare ptr0 ptr1 len

theorem compareTail_first {k : ℕ} (hk : k < len) (hagree : ∀ j, j < k → ptr0 j = ptr1 j)
    (hne : ptr0 k ≠ ptr1 k) : compareTail ptr0 ptr1 len 0 = byteDiff (ptr0 k) (ptr1 k) := by
  obtain ⟨n, rfl⟩ := Nat.exists_eq_add_of_lt hk
  have hskip : compareTail ptr0 ptr1 (k + (n + 1)) 0 = compareTail ptr0 ptr1 (n + 1) (0 + k) := by
    apply compareTail_skip
    intro j _ hj
    exact hagree j (by omega)
  rw [Nat.add_assoc, hskip, Nat.zero_add, compareTail, if_pos (by simpa using hne)]

theorem comparesBytes_of_ne (hnul : ∀ k, k < len → ptr1 k ≠ 0) (hlen : len ≠ wordSize) :
    ComparesBytes ptr0 ptr1 len where
  zero_iff := by
    rw [fastCompare_eq_zero_iff hnul]
    exact or_iff_right hlen
  first_difference k hk hagree hne := by
    rw [fastCompare_eq_compareTail hnul hlen, compareTail_first hk hagree hne]
    rfl
  behind ptr0' ptr1' h0 h1 := by
    have hnul' : ∀ k, k < len → ptr1' k ≠ 0 := by
      intro k hk
      rw [← h1 k hk]
      exact hnul k hk
    rw [fastCompare_eq_compareTail hnul hlen, fastCompare_eq_compareTail hnul' hlen]
    refine (compareTail_congr ?_ ?_).symm
    · intro k hk
      exact h0 k (by omega)
    · intro k hk
      exact h1 k (by omega)

/-- **The comparison, exactly.** In front of NUL-free bytes, `fast_compare` is the
byte comparison if and only if `len` is not a word, or the words agree. -/
theorem comparesBytes_iff (ptr0 ptr1 : ℕ → Byte) (len : ℕ) (hnul : ∀ k, k < len → ptr1 k ≠ 0) :
    ComparesBytes ptr0 ptr1 len ↔
      len ≠ wordSize ∨ ∀ k, k < wordSize → ptr0 k = ptr1 k := by
  rcases eq_or_ne len wordSize with rfl | hlen
  · constructor
    · intro h
      exact Or.inr (h.zero_iff.mp fastCompare_wordSize)
    · rintro (hne | hagree)
      · exact absurd rfl hne
      · refine ⟨iff_of_true fastCompare_wordSize hagree, ?_, ?_⟩
        · intro k hk _ hne
          exact absurd (hagree k hk) hne
        · intro ptr0' ptr1' _ _
          rw [fastCompare_wordSize, fastCompare_wordSize]
  · exact iff_of_true (comparesBytes_of_ne hnul hlen) (Or.inl hlen)

/-- Two names of nine letters. -/
theorem comparesBytes_nine_iff :
    ComparesBytes (fun _ => 65) (fun k => if k = 8 then 66 else 65) 9 ↔
      9 ≠ wordSize ∨ ∀ k, k < wordSize → (65 : Byte) = if k = 8 then 66 else 65 := by
  apply comparesBytes_iff
  decide

/-- Two words that differ in every byte compare equal. -/
theorem words_compare_equal :
    ¬ ∀ (ptr0 ptr1 : ℕ → Byte) (len : ℕ), (∀ k, ptr0 k ≠ 0) → (∀ k, ptr1 k ≠ 0) →
      ComparesBytes ptr0 ptr1 len := by
  intro h
  have h0 : (65 : Byte) ≠ 0 := by decide
  have h1 : (66 : Byte) ≠ 0 := by decide
  have hzero := (h (fun _ => 65) (fun _ => 66) wordSize (fun _ => h0) (fun _ => h1)).zero_iff
  exact absurd (hzero.mp fastCompare_wordSize 0 (by decide)) (by decide)

/-! ## The reads -/

/-- No byte at `len` or behind is read, through either pointer. -/
def ReadsBelow (ptr0 ptr1 : ℕ → Byte) (len : ℕ) : Prop :=
  ∀ r ∈ fastCompareReads ptr0 ptr1 len, r.1 + r.2 ≤ len

theorem readsBelow_iff_readsWithin :
    ReadsBelow ptr0 ptr1 len ↔ ReadsWithin ptr0 ptr1 len len := by
  rw [← fastCompareReads_le_iff]
  exact forall₂_congr fun r _ => Nat.cast_le.symm

/-- **The reads, exactly.** `fast_compare` stays within the `len` bytes if and
only if they are no more than a word, or the strings differ in one of the whole
words among them. -/
theorem readsBelow_iff (ptr0 ptr1 : ℕ → Byte) (len : ℕ) :
    ReadsBelow ptr0 ptr1 len ↔
      len ≤ wordSize ∨ ∃ k, k < len / wordSize * wordSize ∧ ptr0 k ≠ ptr1 k := by
  rw [readsBelow_iff_readsWithin]
  unfold ReadsWithin
  rcases Nat.lt_trichotomy len wordSize with hshort | hword | hlong
  · rw [if_pos hshort]
    refine iff_of_true ?_ (Or.inl hshort.le)
    intro k hk _
    omega
  · rw [if_neg hword.not_lt]
    exact iff_of_true (Or.inl hword) (Or.inl hword.le)
  · rw [if_neg hlong.not_gt, or_iff_right hlong.ne', or_iff_right hlong.not_ge]
    constructor
    · intro hroom
      by_contra hnone
      push Not at hnone
      -- nothing ends the loop in front of the word that crosses `len`
      have hcross := hroom (len / wordSize) (le_refl _) hnone
      have hpos : 0 < wordSize := by decide
      have hlast : len < len / wordSize * wordSize + wordSize := Nat.lt_div_mul_add hpos
      omega
    · rintro ⟨k, hk, hne⟩ b hb hagree
      have hle : b * wordSize ≤ k := by
        by_contra hlt
        exact hne (hagree k (by omega))
      have hwhole := Nat.div_mul_le_self len wordSize
      simp only [wordSize] at *
      omega

/-- Two equal strings of nine bytes: the second word reaches up to the sixteenth. -/
theorem word_crosses_the_length :
    ¬ ∀ (ptr0 ptr1 : ℕ → Byte) (len : ℕ), ReadsBelow ptr0 ptr1 len := by
  intro h
  have hread : (8, 8) ∈ fastCompareReads (fun _ => 65) (fun _ => 65) 9 := by decide
  exact absurd (h (fun _ => 65) (fun _ => 65) 9 (8, 8) hread) (by decide)

end Zroxy
