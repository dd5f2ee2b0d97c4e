import Mathlib.Data.List.Basic
import Mathlib.Tactic.Ring

/-!
# Memory seen from a base pointer

A C program that owns a block of bytes reaches it through one pointer and
signed offsets. `Mem α` is what such a pointer sees: the cell at every offset,
those in front of the block and behind it included, so that an access outside
the block still has a meaning (it reads or changes a cell nobody promised).

The three operations are the ones `<string.h>` offers (`memcpy` from another
object, `memmove` inside the block, `memset`), and `window` reads a run of
cells back as a list. The laws below are stated on windows: appending behind a
window, moving a tail to the front, and frames.
-/

namespace OffsetMemory

universe u
variable {α : Type u}

/-- The cells around a base pointer, by offset. -/
abbrev Mem (α : Type u) : Type u := ℤ → α

/-- `memcpy(base + off, xs, |xs|)`. -/
def store (m : Mem α) (off : ℤ) (xs : List α) : Mem α := fun i =>
  if off ≤ i then (xs[(i - off).toNat]?).getD (m i) else m i

/-- `memmove(base + dst, base + src, len)`; nothing moves when `len ≤ 0`. -/
def move (m : Mem α) (dst src len : ℤ) : Mem α := fun i =>
  if dst ≤ i ∧ i < dst + len then m (src + (i - dst)) else m i

/-- `memset(base + off, a, len)`. -/
def fill (m : Mem α) (off len : ℤ) (a : α) : Mem α := fun i =>
  if off ≤ i ∧ i < off + len then a else m i

/-- The `n` cells from offset `off` on, first cell first. -/
def window (m : Mem α) (off : ℤ) (n : ℕ) : List α :=
  (List.range n).map fun k : ℕ => m (off + k)

/-! ## Windows -/

@[simp] theorem window_length (m : Mem α) (off : ℤ) (n : ℕ) :
    (window m off n).length = n := by
  simp [window]

@[simp] theorem window_zero (m : Mem α) (off : ℤ) : window m off 0 = [] := rfl

theorem window_getElem (m : Mem α) (off : ℤ) (n k : ℕ) (h : k < (window m off n).length) :
    (window m off n)[k] = m (off + k) := by
  simp [window]

theorem window_congr {m m' : Mem α} {off off' : ℤ} {n : ℕ}
    (h : ∀ k : ℕ, k < n → m (off + k) = m' (off' + k)) :
    window m off n = window m' off' n := by
  apply List.map_congr_left
  intro k hk
  exact h k (List.mem_range.mp hk)

theorem window_eq_iff {m m' : Mem α} {off : ℤ} {n : ℕ} :
    window m off n = window m' off n ↔ ∀ k, off ≤ k → k < off + n → m k = m' k := by
  constructor
  · intro heq k hk hk'
    obtain ⟨j, hj⟩ := Int.eq_ofNat_of_zero_le (show 0 ≤ k - off by omega)
    obtain rfl : k = off + j := by omega
    have hcell := List.getElem_of_eq heq (i := j) (by simp; omega)
    rwa [window_getElem, window_getElem] at hcell
  · intro hall
    exact window_congr fun k hk => hall _ (by omega) (by omega)

theorem window_add (m : Mem α) (off : ℤ) (a b : ℕ) :
    window m off (a + b) = window m off a ++ window m (off + a) b := by
  simp only [window, List.range_add, List.map_append, List.map_map]
  congr 1
  apply List.map_congr_left
  intro k _
  simp [add_assoc]

theorem window_drop (m : Mem α) (off : ℤ) {n k : ℕ} (h : k ≤ n) :
    (window m off n).drop k = window m (off + k) (n - k) := by
  obtain ⟨j, rfl⟩ := Nat.exists_eq_add_of_le h
  rw [window_add, List.drop_left' (by simp), Nat.add_sub_cancel_left]

theorem window_take (m : Mem α) (off : ℤ) {n k : ℕ} (h : k ≤ n) :
    (window m off n).take k = window m off k := by
  obtain ⟨j, rfl⟩ := Nat.exists_eq_add_of_le h
  rw [window_add, List.take_left' (by simp)]

theorem prefix_window (m : Mem α) (off : ℤ) {n k : ℕ} (h : k ≤ n) :
    window m off k <+: window m off n := by
  rw [← window_take m off h]
  exact List.take_prefix k _

/-! ## Storing -/

theorem store_below {m : Mem α} {off i : ℤ} {xs : List α} (h : i < off) :
    store m off xs i = m i := by
  simp [store, not_le.mpr h]

theorem store_above {m : Mem α} {off i : ℤ} {xs : List α}
    (h : off + xs.length ≤ i) : store m off xs i = m i := by
  have hlen : xs.length ≤ (i - off).toNat := by omega
  simp [store, List.getElem?_eq_none hlen]

theorem store_inside (m : Mem α) (off : ℤ) (xs : List α) (k : ℕ)
    (h : k < xs.length) : store m off xs (off + k) = xs[k] := by
  have hk : (off + (k : ℤ) - off).toNat = k := by omega
  simp [store, h]

@[simp] theorem store_nil (m : Mem α) (off : ℤ) : store m off [] = m := by
  ext i
  simp [store]

theorem store_concat (m : Mem α) (off : ℤ) (xs : List α) (x : α) :
    store m off (xs ++ [x]) (off + xs.length) = x := by
  rw [store_inside m off (xs ++ [x]) xs.length (by simp)]
  exact List.getElem_concat_length rfl _

theorem window_store (m : Mem α) (off : ℤ) (xs : List α) :
    window (store m off xs) off xs.length = xs := by
  apply List.ext_getElem (by simp)
  intro k hk hk'
  rw [window_getElem, store_inside _ _ _ _ hk']

theorem window_store_append (m : Mem α) (off : ℤ) (n : ℕ) (xs : List α) :
    window (store m (off + n) xs) off (n + xs.length) = window m off n ++ xs := by
  rw [window_add, window_store]
  congr 1
  apply window_congr
  intro k hk
  exact store_below (by omega)

/-! ## Moving and filling -/

theorem move_outside {m : Mem α} {dst src len i : ℤ}
    (h : i < dst ∨ dst + len ≤ i) : move m dst src len i = m i := by
  have hi : ¬ (dst ≤ i ∧ i < dst + len) := by omega
  simp [move, hi]

@[simp] theorem move_self (m : Mem α) (off len : ℤ) : move m off off len = m := by
  ext i
  simp [move]

theorem window_move (m : Mem α) (dst src : ℤ) (n : ℕ) :
    window (move m dst src n) dst n = window m src n := by
  apply window_congr
  intro k hk
  have hi : dst ≤ dst + (k : ℤ) ∧ dst + (k : ℤ) < dst + n := by omega
  simp [move, hi.2]

theorem fill_outside {m : Mem α} {off len i : ℤ} {a : α}
    (h : i < off ∨ off + len ≤ i) : fill m off len a i = m i := by
  have hi : ¬ (off ≤ i ∧ i < off + len) := by omega
  simp [fill, hi]

theorem fill_inside {m : Mem α} {off len i : ℤ} {a : α}
    (h : off ≤ i ∧ i < off + len) : fill m off len a i = a := by
  simp [fill, h]

@[simp] theorem fill_zero (m : Mem α) (off : ℤ) (a : α) : fill m off 0 a = m := by
  ext i
  exact fill_outside (by omega)

theorem window_fill_behind {m : Mem α} {off at_ len : ℤ} {n : ℕ} {a : α}
    (h : off + n ≤ at_) : window (fill m at_ len a) off n = window m off n := by
  apply window_congr
  intro k hk
  exact fill_outside (Or.inl (by omega))

theorem window_fill_ahead {m : Mem α} {off at_ len : ℤ} {n : ℕ} {a : α}
    (h : at_ + len ≤ off) : window (fill m at_ len a) off n = window m off n := by
  apply window_congr
  intro k hk
  exact fill_outside (Or.inr (by omega))

theorem store_window (m : Mem α) (off : ℤ) (n : ℕ) : store m off (window m off n) = m := by
  ext k
  rcases lt_or_ge k off with hk | hk
  · exact store_below hk
  · obtain ⟨j, hj⟩ := Int.eq_ofNat_of_zero_le (show 0 ≤ k - off by omega)
    obtain rfl : k = off + j := by omega
    rcases lt_or_ge j n with hjn | hjn
    · rw [store_inside _ _ _ _ (by simpa using hjn), window_getElem]
    · exact store_above (by simp; omega)

/-! ## Splicing

Putting a run of cells where another one was, of a different length perhaps, and
moving everything behind it up to an end along. Done in place, this is a
`memmove` of the tail and a `memcpy`; when the new run is the shorter one the
two may also come in the other order. -/

/-- The `old` cells at `off` become `xs`, and the cells behind them, up to
`size`, follow. -/
def splice (m : Mem α) (off : ℤ) (old : ℕ) (xs : List α) (size : ℤ) : Mem α :=
  store (move m (off + xs.length) (off + old) (size - (off + old))) off xs

variable {m : Mem α} {off size i : ℤ} {old : ℕ} {xs : List α}

theorem splice_below (h : i < off) : splice m off old xs size i = m i := by
  unfold splice
  rw [store_below h, move_outside (Or.inl (by omega))]

theorem splice_inside (k : ℕ) (h : k < xs.length) :
    splice m off old xs size (off + k) = xs[k] := by
  unfold splice
  rw [store_inside _ _ _ _ h]

theorem splice_behind (h : off + xs.length ≤ i) (h' : i < size + xs.length - old) :
    splice m off old xs size i = m (i - xs.length + old) := by
  unfold splice
  rw [store_above h, move, if_pos (by omega)]
  congr 1
  omega

theorem splice_eq_move_store (h : xs.length ≤ old) :
    splice m off old xs size =
      move (store m off xs) (off + xs.length) (off + old) (size - (off + old)) := by
  ext k
  unfold splice
  rcases lt_or_ge k (off + xs.length) with hk | hk
  · rw [move_outside (Or.inl hk)]
    unfold store
    rw [move_outside (Or.inl hk)]
  · rw [store_above hk]
    unfold move
    split
    · rw [store_above (by omega)]
    · rw [store_above hk]

theorem splice_same_length (h : xs.length = old) :
    splice m off old xs size = store m off xs := by
  ext k
  rw [splice_eq_move_store h.le, move]
  split
  · congr 1
    omega
  · rfl

theorem splice_self (h : window m off old = xs) : splice m off old xs size = m := by
  have hlen : xs.length = old := by rw [← h, window_length]
  rw [splice_same_length hlen, ← h, store_window]

/-- **A splice, as a list**: the run is replaced, and what is around it kept. -/
theorem window_splice {lo : ℤ} {a b : ℕ} (hlo : lo + a = off) (hsize : off + old + b = size) :
    window (splice m off old xs size) lo (a + xs.length + b) =
      window m lo a ++ xs ++ window m (off + old) b := by
  rw [window_add, window_add, hlo]
  congr 1
  · congr 1
    · apply window_congr
      intro k hk
      exact splice_below (by omega)
    · exact window_store _ _ _
  · apply window_congr
    intro k hk
    rw [splice_behind (by omega) (by omega)]
    congr 1
    omega

theorem splice_above (h : size + xs.length ≤ i + old) (hin : off + old ≤ size) :
    splice m off old xs size i = m i := by
  unfold splice
  rw [store_above (by omega), move_outside (Or.inr (by omega))]

/-- `new`, written over the front of `old`. -/
def overlaid (new old : List α) : List α := new.take old.length ++ old.drop new.length

theorem overlaid_self (xs : List α) : overlaid xs xs = xs := by simp [overlaid]

/-- **A splice between fixed ends**: a longer list loses its last cells, and behind
a shorter one the last cells are still those of the old one. -/
theorem window_splice_overlaid {lo : ℤ} {a b n : ℕ} (hlo : lo + a = off)
    (hsize : off + old + b = size) (hn : n = a + old + b) :
    window (splice m off old xs size) lo n =
      overlaid (window m lo a ++ xs ++ window m (off + old) b) (window m lo n) := by
  rw [← window_splice hlo hsize]
  obtain ⟨k, hk⟩ : ∃ k, k = a + xs.length + b := ⟨_, rfl⟩
  rw [← hk, overlaid, window_length, window_length]
  rcases le_total n k with hle | hle
  · rw [window_take _ _ hle, List.drop_of_length_le (by rw [window_length]; exact hle),
      List.append_nil]
  · obtain ⟨j, rfl⟩ := Nat.exists_eq_add_of_le hle
    rw [List.take_of_length_le (by rw [window_length]; exact hle), window_add,
      window_drop _ _ hle, Nat.add_sub_cancel_left]
    congr 1
    apply window_congr
    intro i hi
    exact splice_above (by omega) (by omega)

end OffsetMemory
