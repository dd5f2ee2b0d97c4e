import Mathlib.Data.List.DropRight
import Zroxy.Lib.OffsetMemory

/-!
# A ring in a block of memory

A block of `N` cells read around its end: `ring m N tail n` lists `n` cells from
`tail` on, where the cell behind the last is the first. The index runs free; only
its remainder counts.

The two laws that a queue in such a block rests on are `ring_store`, which
appends a value in the cell behind the listed ones as long as there is one, and
`ring_store_full`, which writes over the oldest value when there is none.

`List.rtake` is the list that these work towards: the last `N` of all values.
`rtake_append_rtake` says that what has been dropped before makes no difference.
-/

namespace OffsetMemory

universe u
variable {α : Type u}

/-- The `n` cells from `tail` on, around a block of `N`. -/
def ring (m : Mem α) (N tail n : ℕ) : List α :=
  (List.range n).map fun k => m ((tail + k) % N : ℕ)

variable {m m' : Mem α} {N tail n k : ℕ} {x : α}

@[simp] theorem ring_length (m : Mem α) (N tail n : ℕ) : (ring m N tail n).length = n := by
  simp [ring]

@[simp] theorem ring_zero (m : Mem α) (N tail : ℕ) : ring m N tail 0 = [] := rfl

theorem ring_congr (h : ∀ k, k < n → m ((tail + k) % N : ℕ) = m' ((tail + k) % N : ℕ)) :
    ring m N tail n = ring m' N tail n := by
  apply List.map_congr_left
  intro k hk
  exact h k (List.mem_range.mp hk)

theorem ring_mod (m : Mem α) (N tail n : ℕ) : ring m N (tail % N) n = ring m N tail n := by
  apply List.map_congr_left
  intro k _
  rw [Nat.mod_add_mod]

theorem ring_add (m : Mem α) (N tail a b : ℕ) :
    ring m N tail (a + b) = ring m N tail a ++ ring m N (tail + a) b := by
  simp only [ring, List.range_add, List.map_append, List.map_map]
  congr 1
  apply List.map_congr_left
  intro k _
  simp [add_assoc]

theorem ring_succ (m : Mem α) (N tail n : ℕ) :
    ring m N tail (n + 1) = m (tail % N : ℕ) :: ring m N (tail + 1) n := by
  rw [add_comm, ring_add]
  rfl

theorem ring_drop (h : k ≤ n) : (ring m N tail n).drop k = ring m N (tail + k) (n - k) := by
  obtain ⟨j, rfl⟩ := Nat.exists_eq_add_of_le h
  rw [ring_add, List.drop_left' (ring_length ..), Nat.add_sub_cancel_left]

theorem ring_eq_window (h : tail + n ≤ N) : ring m N tail n = window m tail n := by
  apply List.map_congr_left
  intro k hk
  have hlt : tail + k < N := by
    have hk' := List.mem_range.mp hk
    omega
  rw [Nat.mod_eq_of_lt hlt, Nat.cast_add]

theorem ring_index_ne (hk : k < n) (hn : n < N) : (tail + k) % N ≠ (tail + n) % N := by
  intro heq
  have hdvd := Nat.dvd_of_mod_eq_zero (Nat.sub_mod_eq_zero_of_mod_eq heq.symm)
  have hle := Nat.le_of_dvd (by omega) hdvd
  omega

theorem ring_store (m : Mem α) (tail : ℕ) (x : α) (h : n < N) :
    ring (store m ((tail + n) % N : ℕ) [x]) N tail (n + 1) = ring m N tail n ++ [x] := by
  rw [ring_add]
  congr 1
  · apply ring_congr
    intro k hk
    have hne : (tail + k) % N ≠ (tail + n) % N := ring_index_ne hk h
    rcases lt_or_gt_of_ne hne with hlt | hgt
    · exact store_below (by exact_mod_cast hlt)
    · exact store_above (by simp only [List.length_singleton]; omega)
  · have hinside := store_inside m ((tail + n) % N : ℕ) [x] 0 Nat.one_pos
    rw [ring_succ, ring_zero, List.singleton_inj]
    simpa using hinside

/-- When all cells are listed, it takes the place of the first. -/
theorem ring_store_full (m : Mem α) (tail : ℕ) (x : α) (h : 0 < N) :
    ring (store m (tail % N : ℕ) [x]) N (tail + 1) N = (ring m N tail N).drop 1 ++ [x] := by
  obtain ⟨n, rfl⟩ := Nat.exists_eq_succ_of_ne_zero h.ne'
  have hcell : (tail + 1 + n) % (n + 1) = tail % (n + 1) := by
    rw [add_assoc, Nat.add_comm 1 n, Nat.add_mod_right]
  have happend := ring_store m (tail + 1) x (Nat.lt_succ_self n)
  rw [hcell] at happend
  rw [happend, ring_drop (by omega)]
  rfl

/-! ## The last values of a list -/

theorem rtake_of_length_le {l : List α} (h : l.length ≤ N) : l.rtake N = l := by
  rw [List.rtake, Nat.sub_eq_zero_of_le h, List.drop_zero]

@[simp] theorem length_rtake (l : List α) (N : ℕ) : (l.rtake N).length = min N l.length := by
  rw [List.rtake, List.length_drop]
  omega

theorem rtake_append_rtake (l l' : List α) (N : ℕ) :
    (l.rtake N ++ l').rtake N = (l ++ l').rtake N := by
  unfold List.rtake
  rw [← List.drop_append_of_le_length (by omega), List.drop_drop, List.length_drop,
    List.length_append]
  congr 1
  omega

end OffsetMemory
