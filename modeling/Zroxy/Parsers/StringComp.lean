import Zroxy.Utils.BufferManager

/-!
# `fast_compare` (`utils/algorithms/string_comp.h`)

The comparison of two byte strings word by word. A pointer is the function from
an index to the byte there.
-/

namespace Zroxy

/-- `sizeof(size_t)`. -/
abbrev wordSize : ℕ := 8

/-- `(int)((unsigned char)a - (unsigned char)b)`. -/
def byteDiff (a b : Byte) : ℤ := (a.toNat : ℤ) - (b.toNat : ℤ)

/-- `lptr0[block] ^ lptr1[block]` is not zero: some byte of the word differs. -/
def wordsDiffer (ptr0 ptr1 : ℕ → Byte) (block : ℕ) : Bool :=
  (List.range wordSize).any fun k =>
    ptr0 (block * wordSize + k) != ptr1 (block * wordSize + k)

/-- The `for` loop inside a differing word: it stops at the first position
below `len` with a difference or a NUL. `n` positions are left from `pos` on. -/
def scanWord (ptr0 ptr1 : ℕ → Byte) : ℕ → ℕ → Option ℤ
  | 0, _ => none
  | n + 1, pos =>
      if ptr0 pos != ptr1 pos || ptr0 pos == 0 || ptr1 pos == 0 then
        some (byteDiff (ptr0 pos) (ptr1 pos))
      else scanWord ptr0 ptr1 n (pos + 1)

/-- The word loop: `n` blocks are left from `block` on. -/
def compareWords (ptr0 ptr1 : ℕ → Byte) (len : ℕ) : ℕ → ℕ → Option ℤ
  | 0, _ => none
  | n + 1, block =>
      if wordsDiffer ptr0 ptr1 block then
        match scanWord ptr0 ptr1 (len - block * wordSize) (block * wordSize) with
        | some d => some d
        | none => compareWords ptr0 ptr1 len n (block + 1)
      else compareWords ptr0 ptr1 len n (block + 1)

/-- The byte loop at the end: `n` bytes are left from `offset` on. -/
def compareTail (ptr0 ptr1 : ℕ → Byte) : ℕ → ℕ → ℤ
  | 0, _ => 0
  | n + 1, offset =>
      if ptr0 offset != ptr1 offset then byteDiff (ptr0 offset) (ptr1 offset)
      else compareTail ptr0 ptr1 n (offset + 1)

/-- `fast_compare`. -/
def fastCompare (ptr0 ptr1 : ℕ → Byte) (len : ℕ) : ℤ :=
  let fast := len / wordSize + 1
  let offset := (fast - 1) * wordSize
  let fast := if len ≤ wordSize then 0 else fast
  match compareWords ptr0 ptr1 len fast 0 with
  | some d => d
  | none => compareTail ptr0 ptr1 (len - offset) offset

/-- At most a word long, the comparison reads the bytes from `len / 8 * 8` on
only, each below `len`. -/
theorem fastCompare_of_le {ptr0 ptr1 : ℕ → Byte} {len : ℕ} (h : len ≤ wordSize) :
    fastCompare ptr0 ptr1 len =
      compareTail ptr0 ptr1 (len - len / wordSize * wordSize) (len / wordSize * wordSize) := by
  simp [fastCompare, h, compareWords]

theorem compareTail_congr {ptr0 ptr0' ptr1 ptr1' : ℕ → Byte} {n offset : ℕ}
    (h0 : ∀ k, k < offset + n → ptr0 k = ptr0' k) (h1 : ∀ k, k < offset + n → ptr1 k = ptr1' k) :
    compareTail ptr0 ptr1 n offset = compareTail ptr0' ptr1' n offset := by
  induction n generalizing offset with
  | zero => rfl
  | succ n ih =>
      rw [compareTail, compareTail, h0 offset (by omega), h1 offset (by omega),
        ih (fun k hk => h0 k (by omega)) fun k hk => h1 k (by omega)]

/-- For names of at most a word only the bytes below `len` matter. -/
theorem fastCompare_congr {ptr0 ptr0' ptr1 : ℕ → Byte} {len : ℕ} (hlen : len ≤ wordSize)
    (h : ∀ k, k < len → ptr0 k = ptr0' k) :
    fastCompare ptr0 ptr1 len = fastCompare ptr0' ptr1 len := by
  rw [fastCompare_of_le hlen, fastCompare_of_le hlen]
  refine compareTail_congr (fun k hk => h k ?_) fun _ _ => rfl
  have := Nat.div_mul_le_self len wordSize
  omega

/-! ## What it computes -/

section
variable {ptr0 ptr1 : ℕ → Byte}

theorem byteDiff_eq_zero_iff {a b : Byte} : byteDiff a b = 0 ↔ a = b := by
  unfold byteDiff
  constructor
  · intro h
    apply UInt8.toNat_inj.mp
    omega
  · rintro rfl
    exact sub_self _

theorem compareTail_eq_zero_iff {n offset : ℕ} :
    compareTail ptr0 ptr1 n offset = 0 ↔
      ∀ k, offset ≤ k → k < offset + n → ptr0 k = ptr1 k := by
  induction n generalizing offset with
  | zero => exact iff_of_true rfl fun k hk hk' => by omega
  | succ n ih =>
      rw [compareTail]
      by_cases hhead : ptr0 offset = ptr1 offset
      · rw [if_neg (by simpa using hhead), ih]
        constructor
        · intro h k hk hk'
          rcases Nat.eq_or_lt_of_le hk with rfl | hlt
          · exact hhead
          · exact h k hlt (by omega)
        · intro h k hk hk'
          exact h k (by omega) (by omega)
      · rw [if_pos (by simpa using hhead), byteDiff_eq_zero_iff]
        exact iff_of_false hhead fun h => hhead (h offset (le_refl _) (by omega))

theorem compareTail_skip {a b offset : ℕ}
    (h : ∀ k, offset ≤ k → k < offset + a → ptr0 k = ptr1 k) :
    compareTail ptr0 ptr1 (a + b) offset = compareTail ptr0 ptr1 b (offset + a) := by
  induction a generalizing offset with
  | zero => rw [Nat.zero_add, Nat.add_zero]
  | succ a ih =>
      have hhead : ptr0 offset = ptr1 offset := h offset (le_refl _) (by omega)
      rw [Nat.add_right_comm, compareTail, if_neg (by simpa using hhead),
        ih fun k hk hk' => h k (by omega) (by omega), Nat.add_assoc, Nat.add_comm 1 a]

theorem wordsDiffer_eq_false_iff {block : ℕ} :
    wordsDiffer ptr0 ptr1 block = false ↔
      ∀ k, block * 8 ≤ k → k < block * 8 + 8 → ptr0 k = ptr1 k := by
  unfold wordsDiffer
  simp only [wordSize, List.any_eq_false]
  constructor
  · intro h k hk hk'
    obtain ⟨j, rfl⟩ := Nat.exists_eq_add_of_le hk
    simpa using h j (List.mem_range.mpr (by omega))
  · intro h j hj
    have hcell := h (block * 8 + j) (by omega) (by have := List.mem_range.mp hj; omega)
    simpa using hcell

/-- In front of a NUL-free string the scan of a word is the byte loop. -/
theorem scanWord_eq {n pos : ℕ} (h : ∀ k, pos ≤ k → k < pos + n → ptr1 k ≠ 0) :
    scanWord ptr0 ptr1 n pos =
      if compareTail ptr0 ptr1 n pos = 0 then none else some (compareTail ptr0 ptr1 n pos) := by
  induction n generalizing pos with
  | zero => rfl
  | succ n ih =>
      have hnul := h pos (le_refl _) (by omega)
      unfold scanWord compareTail
      by_cases hhead : ptr0 pos = ptr1 pos
      · have hgo : ¬ (ptr0 pos != ptr1 pos || ptr0 pos == 0 || ptr1 pos == 0) = true := by
          simp [hhead, hnul]
        simp only [if_neg hgo, if_neg (show ¬ (ptr0 pos != ptr1 pos) = true by simpa using hhead)]
        exact ih fun k hk hk' => h k (by omega) (by omega)
      · have hstop : (ptr0 pos != ptr1 pos || ptr0 pos == 0 || ptr1 pos == 0) = true := by
          simp [hhead]
        simp only [if_pos hstop, if_pos (show (ptr0 pos != ptr1 pos) = true by simpa using hhead),
          if_neg (fun hzero => hhead (byteDiff_eq_zero_iff.mp hzero))]

theorem scanWord_none {n pos : ℕ} (h : scanWord ptr0 ptr1 n pos = none) :
    ∀ k, pos ≤ k → k < pos + n → ptr0 k = ptr1 k := by
  induction n generalizing pos with
  | zero => exact fun k hk hk' => by omega
  | succ n ih =>
      unfold scanWord at h
      split at h
      · cases h
      · rename_i hgo
        intro k hk hk'
        rcases Nat.eq_or_lt_of_le hk with rfl | hlt
        · simp only [Bool.or_eq_true, not_or, bne_iff_ne, ne_eq, not_not] at hgo
          exact hgo.1.1
        · exact ih h k hlt (by omega)

theorem compareWords_none {len n block : ℕ} (h : compareWords ptr0 ptr1 len n block = none) :
    ∀ k, block * 8 ≤ k → k < (block + n) * 8 → k < len → ptr0 k = ptr1 k := by
  induction n generalizing block with
  | zero => exact fun k hk hk' => by omega
  | succ n ih =>
      unfold compareWords at h
      intro k hk hk' hlen
      cases hword : wordsDiffer ptr0 ptr1 block with
      | true =>
          rw [hword, if_pos rfl] at h
          split at h
          · cases h
          · exact scanWord_none ‹_› k hk (by simp only [wordSize]; omega)
      | false =>
          rw [hword, if_neg Bool.false_ne_true] at h
          by_cases hin : k < block * 8 + 8
          · exact wordsDiffer_eq_false_iff.mp hword k hk hin
          · exact ih h k (by omega) (by omega) hlen

/-- Where nothing differs, the scan can stop at a common NUL only. -/
theorem scanWord_agree {n pos : ℕ} {d : ℤ}
    (hagree : ∀ k, pos ≤ k → k < pos + n → ptr0 k = ptr1 k)
    (h : scanWord ptr0 ptr1 n pos = some d) : d = 0 := by
  induction n generalizing pos with
  | zero => cases h
  | succ n ih =>
      unfold scanWord at h
      split at h
      · cases h
        exact byteDiff_eq_zero_iff.mpr (hagree pos (le_refl _) (by omega))
      · exact ih (fun k hk hk' => hagree k (by omega) (by omega)) h

theorem compareWords_agree {len n block : ℕ} {d : ℤ} (hagree : ∀ k, k < len → ptr0 k = ptr1 k)
    (h : compareWords ptr0 ptr1 len n block = some d) : d = 0 := by
  induction n generalizing block with
  | zero => cases h
  | succ n ih =>
      unfold compareWords at h
      split at h
      · split at h
        · rename_i heq
          cases h
          exact scanWord_agree (fun k hk hk' =>
            hagree k (by simp only [wordSize] at hk hk'; omega)) heq
        · exact ih h
      · exact ih h

theorem fastCompare_of_agree {len : ℕ} (hagree : ∀ k, k < len → ptr0 k = ptr1 k) :
    fastCompare ptr0 ptr1 len = 0 := by
  unfold fastCompare
  simp only
  split
  · exact compareWords_agree hagree ‹_›
  · apply compareTail_eq_zero_iff.mpr
    intro k hk hk'
    exact hagree k (by simp only [wordSize, Nat.add_sub_cancel] at hk hk'; omega)

/-- What the word loop finds in front of a NUL-free string is the first
difference. -/
theorem compareWords_some {len n block : ℕ} {d : ℤ} (hnul : ∀ k, k < len → ptr1 k ≠ 0)
    (h : compareWords ptr0 ptr1 len n block = some d) :
    d ≠ 0 ∧ d = compareTail ptr0 ptr1 (len - block * 8) (block * 8) := by
  induction n generalizing block with
  | zero => cases h
  | succ n ih =>
      unfold compareWords at h
      cases hword : wordsDiffer ptr0 ptr1 block with
      | true =>
          have hscan := @scanWord_eq ptr0 ptr1 (len - block * 8) (block * 8)
            fun k hk hk' => hnul k (by omega)
          rw [hword, if_pos rfl] at h
          simp only [wordSize, hscan] at h
          by_cases hzero : compareTail ptr0 ptr1 (len - block * 8) (block * 8) = 0
          · -- the word differs behind `len` only
            have hall := compareTail_eq_zero_iff.mp hzero
            rw [if_pos hzero] at h
            obtain ⟨hd, heq⟩ := ih h
            refine absurd ?_ hd
            rw [heq, compareTail_eq_zero_iff]
            exact fun k hk hk' => hall k (by omega) (by omega)
          · rw [if_neg hzero] at h
            cases h
            exact ⟨hzero, rfl⟩
      | false =>
          have hagree := wordsDiffer_eq_false_iff.mp hword
          rw [hword, if_neg Bool.false_ne_true] at h
          obtain ⟨hd, heq⟩ := ih h
          have hlong : (block + 1) * 8 < len := by
            by_contra hshort
            rw [Nat.sub_eq_zero_of_le (by omega)] at heq
            exact hd heq
          have hsplit : len - block * 8 = 8 + (len - (block + 1) * 8) := by omega
          exact ⟨hd, by rw [heq, hsplit, compareTail_skip hagree, Nat.succ_mul]⟩

/-- **`fast_compare` is the byte comparison**, in front of a NUL-free string that
is not one word long. -/
theorem fastCompare_eq_compareTail {len : ℕ} (h : ∀ k, k < len → ptr1 k ≠ 0)
    (hlen : len ≠ wordSize) : fastCompare ptr0 ptr1 len = compareTail ptr0 ptr1 len 0 := by
  rcases Nat.lt_or_gt_of_ne hlen with hshort | hlong
  · rw [fastCompare_of_le hshort.le, Nat.div_eq_of_lt hshort, Nat.zero_mul, Nat.sub_zero]
  · unfold fastCompare
    simp only [wordSize, if_neg (not_le.mpr hlong), Nat.add_sub_cancel]
    cases hwords : compareWords ptr0 ptr1 len (len / 8 + 1) 0 with
    | some d => rw [(compareWords_some h hwords).2, Nat.zero_mul, Nat.sub_zero]
    | none =>
        -- the words reach to the end
        have hzero : ∀ {n offset}, offset + n ≤ len → compareTail ptr0 ptr1 n offset = 0 := by
          intro n offset hle
          rw [compareTail_eq_zero_iff]
          exact fun k hk hk' => compareWords_none hwords k (by omega) (by omega) (by omega)
        show compareTail _ _ _ _ = _
        rw [hzero (by omega), hzero (by omega)]

theorem fastCompare_wordSize : fastCompare ptr0 ptr1 wordSize = 0 := by
  rw [fastCompare_of_le (le_refl _)]
  rfl

/-- **When two names compare equal.** -/
theorem fastCompare_eq_zero_iff {len : ℕ} (h : ∀ k, k < len → ptr1 k ≠ 0) :
    fastCompare ptr0 ptr1 len = 0 ↔ len = wordSize ∨ ∀ k, k < len → ptr0 k = ptr1 k := by
  by_cases hlen : len = wordSize
  · rw [hlen]
    exact iff_of_true fastCompare_wordSize (Or.inl rfl)
  · rw [fastCompare_eq_compareTail h hlen, compareTail_eq_zero_iff, or_iff_right hlen]
    constructor
    · intro hall k hk
      exact hall k (Nat.zero_le k) (by omega)
    · intro hall k _ hk
      exact hall k (by omega)

/-! ## What it reads -/

/-- The bytes the scan of a word reads, as offsets with lengths. -/
def scanReads (ptr0 ptr1 : ℕ → Byte) : ℕ → ℕ → List (ℕ × ℕ)
  | 0, _ => []
  | n + 1, pos => (pos, 1) ::
      if ptr0 pos != ptr1 pos || ptr0 pos == 0 || ptr1 pos == 0 then []
      else scanReads ptr0 ptr1 n (pos + 1)

/-- What the word loop reads: a word, and the bytes of it again where it
differs. -/
def wordReads (ptr0 ptr1 : ℕ → Byte) (len : ℕ) : ℕ → ℕ → List (ℕ × ℕ)
  | 0, _ => []
  | n + 1, block => (block * wordSize, wordSize) ::
      if wordsDiffer ptr0 ptr1 block then
        scanReads ptr0 ptr1 (len - block * wordSize) (block * wordSize) ++
          match scanWord ptr0 ptr1 (len - block * wordSize) (block * wordSize) with
          | some _ => []
          | none => wordReads ptr0 ptr1 len n (block + 1)
      else wordReads ptr0 ptr1 len n (block + 1)

def tailReads (ptr0 ptr1 : ℕ → Byte) : ℕ → ℕ → List (ℕ × ℕ)
  | 0, _ => []
  | n + 1, offset => (offset, 1) ::
      if ptr0 offset != ptr1 offset then [] else tailReads ptr0 ptr1 n (offset + 1)

/-- What `fast_compare` reads through either pointer. -/
def fastCompareReads (ptr0 ptr1 : ℕ → Byte) (len : ℕ) : List (ℕ × ℕ) :=
  let fast := len / wordSize + 1
  let offset := (fast - 1) * wordSize
  let fast := if len ≤ wordSize then 0 else fast
  wordReads ptr0 ptr1 len fast 0 ++
    match compareWords ptr0 ptr1 len fast 0 with
    | some _ => []
    | none => tailReads ptr0 ptr1 (len - offset) offset

/-- The bytes of the runs are the same in two strings. -/
def SameOn (rs : List (ℕ × ℕ)) (ptr ptr' : ℕ → Byte) : Prop :=
  ∀ r ∈ rs, ∀ k, r.1 ≤ k → k < r.1 + r.2 → ptr k = ptr' k

theorem sameOn_cons {r : ℕ × ℕ} {rs : List (ℕ × ℕ)} {ptr ptr' : ℕ → Byte} :
    SameOn (r :: rs) ptr ptr' ↔
      (∀ k, r.1 ≤ k → k < r.1 + r.2 → ptr k = ptr' k) ∧ SameOn rs ptr ptr' :=
  List.forall_mem_cons

theorem sameOn_append {rs rs' : List (ℕ × ℕ)} {ptr ptr' : ℕ → Byte} :
    SameOn (rs ++ rs') ptr ptr' ↔ SameOn rs ptr ptr' ∧ SameOn rs' ptr ptr' :=
  List.forall_mem_append

/-- A loop over two strings that reads a byte of each a turn, and ends with what
`last` makes of them where `stop` says so, depends on the bytes it reads alone. -/
theorem byteLoop_of_reads {β : Type} (stop : Byte → Byte → Bool) (last : Byte → Byte → β)
    {loop : (ℕ → Byte) → (ℕ → Byte) → ℕ → ℕ → β} {reads : ℕ → ℕ → List (ℕ × ℕ)}
    (hend : ∀ p q p' q' pos, loop p q 0 pos = loop p' q' 0 pos)
    (hloop : ∀ p q n pos, loop p q (n + 1) pos =
      if stop (p pos) (q pos) then last (p pos) (q pos) else loop p q n (pos + 1))
    (hreads : ∀ n pos, reads (n + 1) pos =
      (pos, 1) :: if stop (ptr0 pos) (ptr1 pos) then [] else reads n (pos + 1))
    {ptr0' ptr1' : ℕ → Byte} {n pos : ℕ} (h0 : SameOn (reads n pos) ptr0 ptr0')
    (h1 : SameOn (reads n pos) ptr1 ptr1') : loop ptr0' ptr1' n pos = loop ptr0 ptr1 n pos := by
  induction n generalizing pos with
  | zero => exact hend _ _ _ _ _
  | succ n ih =>
      rw [hreads, sameOn_cons] at h0 h1
      obtain ⟨hhead0, hrest0⟩ := h0
      obtain ⟨hhead1, hrest1⟩ := h1
      rw [hloop, hloop, ← hhead0 pos (le_refl _) (Nat.lt_succ_self _),
        ← hhead1 pos (le_refl _) (Nat.lt_succ_self _)]
      split
      · rfl
      · rw [if_neg ‹_›] at hrest0 hrest1
        exact ih hrest0 hrest1

theorem compareTail_of_reads {ptr0' ptr1' : ℕ → Byte} {n offset : ℕ}
    (h0 : SameOn (tailReads ptr0 ptr1 n offset) ptr0 ptr0')
    (h1 : SameOn (tailReads ptr0 ptr1 n offset) ptr1 ptr1') :
    compareTail ptr0' ptr1' n offset = compareTail ptr0 ptr1 n offset :=
  byteLoop_of_reads (fun a b => a != b) byteDiff (fun _ _ _ _ _ => rfl) (fun _ _ _ _ => rfl)
    (fun _ _ => rfl) h0 h1

theorem scanWord_of_reads {ptr0' ptr1' : ℕ → Byte} {n pos : ℕ}
    (h0 : SameOn (scanReads ptr0 ptr1 n pos) ptr0 ptr0')
    (h1 : SameOn (scanReads ptr0 ptr1 n pos) ptr1 ptr1') :
    scanWord ptr0' ptr1' n pos = scanWord ptr0 ptr1 n pos :=
  byteLoop_of_reads (fun a b => a != b || a == 0 || b == 0) (fun a b => some (byteDiff a b))
    (fun _ _ _ _ _ => rfl) (fun _ _ _ _ => rfl) (fun _ _ => rfl) h0 h1

theorem wordsDiffer_congr {ptr0' ptr1' : ℕ → Byte} {block : ℕ}
    (h0 : ∀ k, block * wordSize ≤ k → k < block * wordSize + wordSize → ptr0 k = ptr0' k)
    (h1 : ∀ k, block * wordSize ≤ k → k < block * wordSize + wordSize → ptr1 k = ptr1' k) :
    wordsDiffer ptr0' ptr1' block = wordsDiffer ptr0 ptr1 block := by
  rw [Bool.eq_iff_iff, ← not_iff_not, Bool.not_eq_true, Bool.not_eq_true,
    wordsDiffer_eq_false_iff, wordsDiffer_eq_false_iff]
  refine forall_congr' fun k => forall₂_congr fun hk hk' => ?_
  rw [h0 k hk hk', h1 k hk hk']

theorem compareWords_of_reads {ptr0' ptr1' : ℕ → Byte} {len n block : ℕ}
    (h0 : SameOn (wordReads ptr0 ptr1 len n block) ptr0 ptr0')
    (h1 : SameOn (wordReads ptr0 ptr1 len n block) ptr1 ptr1') :
    compareWords ptr0' ptr1' len n block = compareWords ptr0 ptr1 len n block := by
  induction n generalizing block with
  | zero => rfl
  | succ n ih =>
      rw [wordReads, sameOn_cons] at h0 h1
      obtain ⟨hword0, hrest0⟩ := h0
      obtain ⟨hword1, hrest1⟩ := h1
      rw [compareWords, compareWords, wordsDiffer_congr hword0 hword1]
      cases hword : wordsDiffer ptr0 ptr1 block with
      | false =>
          rw [hword] at hrest0 hrest1
          exact ih hrest0 hrest1
      | true =>
          rw [hword, if_pos rfl, sameOn_append] at hrest0 hrest1
          rw [if_pos rfl, if_pos rfl, scanWord_of_reads hrest0.1 hrest1.1]
          split
          · rfl
          · rename_i hnone
            rw [hnone] at hrest0 hrest1
            exact ih hrest0.2 hrest1.2

/-- **The record of reads is complete**: bytes that are not on it make no
difference. -/
theorem fastCompare_of_reads {ptr0' ptr1' : ℕ → Byte} {len : ℕ}
    (h0 : SameOn (fastCompareReads ptr0 ptr1 len) ptr0 ptr0')
    (h1 : SameOn (fastCompareReads ptr0 ptr1 len) ptr1 ptr1') :
    fastCompare ptr0' ptr1' len = fastCompare ptr0 ptr1 len := by
  unfold fastCompareReads at h0 h1
  unfold fastCompare
  simp only [sameOn_append] at h0 h1 ⊢
  rw [compareWords_of_reads h0.1 h1.1]
  split
  · rfl
  · rename_i hnone
    rw [hnone] at h0 h1
    exact compareTail_of_reads h0.2 h1.2

/-- As long as the strings agree, the next byte to be read, or for more than one
word the next word, lies within `room` bytes. -/
def ReadsWithin (ptr0 ptr1 : ℕ → Byte) (len : ℕ) (room : ℤ) : Prop :=
  if len < wordSize then
    ∀ k, k < len → (∀ j, j < k → ptr0 j = ptr1 j) → (k : ℤ) + 1 ≤ room
  else len = wordSize ∨
    ∀ b, b ≤ len / wordSize → (∀ j, j < b * wordSize → ptr0 j = ptr1 j) →
      ((b * wordSize + wordSize : ℕ) : ℤ) ≤ room

theorem tailReads_le_iff {n offset : ℕ} {room : ℤ} :
    (∀ r ∈ tailReads ptr0 ptr1 n offset, ((r.1 + r.2 : ℕ) : ℤ) ≤ room) ↔
      ∀ k, offset ≤ k → k < offset + n → (∀ j, offset ≤ j → j < k → ptr0 j = ptr1 j) →
        (k : ℤ) + 1 ≤ room := by
  induction n generalizing offset with
  | zero => exact iff_of_true (fun r hr => by cases hr) fun k hk hk' => by omega
  | succ n ih =>
      rw [tailReads, List.forall_mem_cons]
      by_cases hhead : ptr0 offset = ptr1 offset
      · rw [if_neg (by simpa using hhead), ih]
        constructor
        · rintro ⟨hfirst, hrest⟩ k hk hk' hagree
          rcases Nat.eq_or_lt_of_le hk with rfl | hlt
          · exact_mod_cast hfirst
          · exact hrest k hlt (by omega) fun j hj => hagree j (by omega)
        · intro h
          refine ⟨?_, fun k hk hk' hagree => h k (by omega) (by omega) fun j hj hjk => ?_⟩
          · exact_mod_cast h offset (le_refl _) (by omega) fun j hj hj' => by omega
          · rcases Nat.eq_or_lt_of_le hj with rfl | hlt
            · exact hhead
            · exact hagree j hlt hjk
      · rw [if_pos (by simpa using hhead)]
        constructor
        · rintro ⟨hfirst, -⟩ k hk hk' hagree
          rcases Nat.eq_or_lt_of_le hk with rfl | hlt
          · exact_mod_cast hfirst
          · exact absurd (hagree offset (le_refl _) hlt) hhead
        · intro h
          refine ⟨?_, fun r hr => by cases hr⟩
          exact_mod_cast h offset (le_refl _) (by omega) fun j hj hj' => by omega

/-- The scan reads byte by byte, no further than the first difference. -/
theorem scanReads_le {n pos : ℕ} {r : ℕ × ℕ} (hr : r ∈ scanReads ptr0 ptr1 n pos) {bound : ℕ}
    (hbound : pos + n ≤ bound ∨ ∃ k, pos ≤ k ∧ k < bound ∧ ptr0 k ≠ ptr1 k) :
    r.1 + r.2 ≤ bound := by
  induction n generalizing pos with
  | zero => cases hr
  | succ n ih =>
      rw [scanReads] at hr
      rcases List.mem_cons.mp hr with rfl | hr
      · show pos + 1 ≤ bound
        rcases hbound with hle | ⟨k, hk, hk', -⟩ <;> omega
      · split at hr
        · cases hr
        · rename_i hgo
          refine ih hr (hbound.imp (by omega) ?_)
          rintro ⟨k, hk, hk', hne⟩
          refine ⟨k, ?_, hk', hne⟩
          rcases Nat.eq_or_lt_of_le hk with rfl | hlt
          · exact absurd (show ptr0 pos = ptr1 pos by
              simp only [Bool.or_eq_true, not_or, bne_iff_ne, ne_eq, not_not] at hgo
              exact hgo.1.1) hne
          · exact hlt

/-- A word is read when all words in front of it agree. -/
theorem mem_wordReads {len n block b : ℕ} (hb : block ≤ b) (hb' : b < block + n)
    (h : ∀ j, block * 8 ≤ j → j < b * 8 → ptr0 j = ptr1 j) :
    (b * 8, 8) ∈ wordReads ptr0 ptr1 len n block := by
  induction n generalizing block with
  | zero => omega
  | succ n ih =>
      rw [wordReads]
      rcases Nat.eq_or_lt_of_le hb with rfl | hlt
      · exact List.mem_cons_self
      · have hword : wordsDiffer ptr0 ptr1 block = false :=
          wordsDiffer_eq_false_iff.mpr fun k hk hk' => h k hk (by omega)
        rw [hword, if_neg Bool.false_ne_true]
        exact List.mem_cons_of_mem _ (ih hlt (by omega) fun j hj => h j (by omega))

theorem wordReads_le {len n block : ℕ} (hn : block + n ≤ len / 8 + 1) {r : ℕ × ℕ}
    (hr : r ∈ wordReads ptr0 ptr1 len n block) :
    ∃ b, b ≤ len / 8 ∧ (∀ j, block * 8 ≤ j → j < b * 8 → ptr0 j = ptr1 j) ∧
      r.1 + r.2 ≤ b * 8 + 8 := by
  induction n generalizing block with
  | zero => cases hr
  | succ n ih =>
      rw [wordReads] at hr
      rcases List.mem_cons.mp hr with rfl | hr
      · exact ⟨block, by omega, fun j hj hj' => by omega, le_refl _⟩
      cases hword : wordsDiffer ptr0 ptr1 block with
      | false =>
          rw [hword, if_neg Bool.false_ne_true] at hr
          obtain ⟨b, hb, hagree, hle⟩ := ih (by omega) hr
          refine ⟨b, hb, fun j hj hj' => ?_, hle⟩
          by_cases hin : j < block * 8 + 8
          · exact wordsDiffer_eq_false_iff.mp hword j hj hin
          · exact hagree j (by omega) hj'
      | true =>
          rw [hword, if_pos rfl] at hr
          -- the difference lies in this word, or this is the last one
          have hdiffer : ∃ k, block * 8 ≤ k ∧ k < block * 8 + 8 ∧ ptr0 k ≠ ptr1 k := by
            by_contra hall
            push Not at hall
            rw [wordsDiffer_eq_false_iff.mpr hall] at hword
            cases hword
          rcases List.mem_append.mp hr with hr | hr
          · exact ⟨block, by omega, fun j hj hj' => by omega, scanReads_le hr (Or.inr hdiffer)⟩
          · split at hr
            · cases hr
            · obtain ⟨k, hk, hk', hne⟩ := hdiffer
              have hlast : len ≤ k := by
                by_contra hlt
                exact hne (scanWord_none ‹_› k hk (by simp only [wordSize]; omega))
              obtain rfl : n = 0 := by omega
              cases hr

/-- **What the comparison reads**: it stays within `room` bytes exactly when the
next read does, as long as the strings agree. -/
theorem fastCompareReads_le_iff {len : ℕ} {room : ℤ} :
    (∀ r ∈ fastCompareReads ptr0 ptr1 len, ((r.1 + r.2 : ℕ) : ℤ) ≤ room) ↔
      ReadsWithin ptr0 ptr1 len room := by
  unfold fastCompareReads ReadsWithin
  simp only [wordSize, Nat.add_sub_cancel]
  rcases Nat.lt_trichotomy len 8 with hlen | rfl | hlen
  · rw [if_pos hlen.le, if_pos hlen, Nat.div_eq_of_lt hlen]
    show (∀ r ∈ tailReads ptr0 ptr1 len 0, _) ↔ _
    rw [tailReads_le_iff]
    constructor
    · intro h k hk hagree
      exact h k (Nat.zero_le k) (by omega) fun j _ => hagree j
    · intro h k _ hk hagree
      exact h k (by omega) fun j => hagree j (Nat.zero_le j)
  · exact iff_of_true (fun r hr => by cases hr) (by simp)
  · rw [if_neg (by omega), if_neg (by omega), or_iff_right (by omega)]
    constructor
    · intro h b hb hagree
      refine h (b * 8, 8) (List.mem_append_left _ ?_)
      exact mem_wordReads (Nat.zero_le b) (by omega) fun j _ => hagree j
    · intro h r hr
      rcases List.mem_append.mp hr with hr | hr
      · obtain ⟨b, hb, hagree, hle⟩ := wordReads_le (by omega) hr
        have hroom := h b hb fun j hj => hagree j (by omega) hj
        omega
      · split at hr
        · cases hr
        · rename_i hnone
          have hroom := h (len / 8) (le_refl _) fun j hj =>
            compareWords_none hnone j (by omega) (by omega) (by omega)
          exact tailReads_le_iff.mpr (fun k hk hk' _ => by omega) r hr

end

end Zroxy
