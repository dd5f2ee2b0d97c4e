import Mathlib.Data.Finset.Basic
import Mathlib.Logic.Function.Basic

/-!
# Accounts of a pool of names

Names are handed out of a pool and given back, and handed out again. Every owner
holds one name at most; besides, some names are reserved. A name may be watched,
and then a table leads from it to its owner. `Accounts` says that the live names
are exactly those reserved and those held, no two owners sharing one, and that
the table leads from each name to the owner who holds it and has it watched, and
nowhere else.

What makes it safe to use a name again is that nobody holds it at the time: each
of the four operations keeps the accounts.
-/

namespace Ownership

variable {κ ι : Type*}

structure Accounts (reserved live : Finset κ) (held : ι → Option κ) (watched : ι → Bool)
    (lookup : κ → Option ι) : Prop where
  unique : ∀ i j k, held i = some k → held j = some k → i = j
  not_reserved : ∀ i k, held i = some k → k ∉ reserved
  mem_iff : ∀ k, k ∈ live ↔ k ∈ reserved ∨ ∃ i, held i = some k
  lookup_iff : ∀ k i, lookup k = some i ↔ held i = some k ∧ watched i = true

variable {reserved live : Finset κ} {held : ι → Option κ} {watched : ι → Bool}
  {lookup : κ → Option ι} {i : ι} {k : κ}

namespace Accounts

theorem mem_live (h : Accounts reserved live held watched lookup) (hk : held i = some k) :
    k ∈ live :=
  (h.mem_iff k).mpr (Or.inr ⟨i, hk⟩)

theorem ne_of_notMem (h : Accounts reserved live held watched lookup) (hk : k ∉ live) (j : ι) :
    held j ≠ some k :=
  fun hj => hk (h.mem_live hj)

theorem lookup_none (h : Accounts reserved live held watched lookup) (hk : held i = some k)
    (hunwatched : watched i = false) : lookup k = none := by
  rw [Option.eq_none_iff_forall_ne_some]
  intro j hj
  obtain ⟨hheld, hwatched⟩ := (h.lookup_iff k j).mp hj
  obtain rfl := h.unique i j k hk hheld
  rw [hunwatched] at hwatched
  cases hwatched

theorem nobody (reserved : Finset κ) :
    Accounts reserved reserved (fun _ : ι => none) (fun _ => false) fun _ => none :=
  ⟨nofun, nofun, by simp, by simp⟩

/-! ## The four operations -/

section

variable [DecidableEq κ] [DecidableEq ι]

theorem acquire (h : Accounts reserved live held watched lookup) (hnone : held i = none)
    (hunwatched : watched i = false) (hk : k ∉ live) :
    Accounts reserved (insert k live) (Function.update held i (some k)) watched lookup := by
  have hfree := h.ne_of_notMem hk
  have hother : ∀ j l, Function.update held i (some k) j = some l →
      (j = i ∧ l = k) ∨ (j ≠ i ∧ held j = some l) := by
    intro j l hj
    by_cases hji : j = i
    · subst hji
      rw [Function.update_self] at hj
      exact Or.inl ⟨rfl, (Option.some.inj hj).symm⟩
    · rw [Function.update_of_ne hji] at hj
      exact Or.inr ⟨hji, hj⟩
  refine ⟨?_, ?_, ?_, ?_⟩
  · intro j j' l hj hj'
    rcases hother j l hj with ⟨rfl, rfl⟩ | ⟨-, hheld⟩
    · rcases hother j' l hj' with ⟨rfl, -⟩ | ⟨-, hheld'⟩
      · rfl
      · exact absurd hheld' (hfree j')
    · rcases hother j' l hj' with ⟨-, rfl⟩ | ⟨-, hheld'⟩
      · exact absurd hheld (hfree j)
      · exact h.unique j j' l hheld hheld'
  · intro j l hj
    rcases hother j l hj with ⟨-, rfl⟩ | ⟨-, hheld⟩
    · exact fun hmem => hk ((h.mem_iff l).mpr (Or.inl hmem))
    · exact h.not_reserved j l hheld
  · intro l
    rw [Finset.mem_insert, h.mem_iff]
    constructor
    · rintro (rfl | hmem | ⟨j, hj⟩)
      · exact Or.inr ⟨i, Function.update_self ..⟩
      · exact Or.inl hmem
      · refine Or.inr ⟨j, ?_⟩
        rw [Function.update_of_ne, hj]
        rintro rfl
        rw [hnone] at hj
        cases hj
    · rintro (hmem | ⟨j, hj⟩)
      · exact Or.inr (Or.inl hmem)
      · rcases hother j l hj with ⟨-, rfl⟩ | ⟨-, hheld⟩
        · exact Or.inl rfl
        · exact Or.inr (Or.inr ⟨j, hheld⟩)
  · intro l j
    rw [h.lookup_iff]
    refine and_congr_left fun hwatched => ?_
    rw [Function.update_of_ne]
    rintro rfl
    rw [hunwatched] at hwatched
    cases hwatched

theorem watch (h : Accounts reserved live held watched lookup) (hk : held i = some k) :
    Accounts reserved live held (Function.update watched i true)
      (Function.update lookup k (some i)) := by
  refine ⟨h.unique, h.not_reserved, h.mem_iff, ?_⟩
  intro l j
  by_cases hl : l = k
  · subst hl
    rw [Function.update_self, Option.some.injEq]
    constructor
    · rintro rfl
      exact ⟨hk, Function.update_self ..⟩
    · rintro ⟨hheld, -⟩
      exact h.unique i j l hk hheld
  · rw [Function.update_of_ne hl, h.lookup_iff]
    refine and_congr_right fun hheld => ?_
    rw [Function.update_of_ne]
    rintro rfl
    rw [hk] at hheld
    exact hl (Option.some.inj hheld).symm

theorem unwatch (h : Accounts reserved live held watched lookup) (hk : held i = some k) :
    Accounts reserved live held (Function.update watched i false)
      (Function.update lookup k none) := by
  refine ⟨h.unique, h.not_reserved, h.mem_iff, ?_⟩
  intro l j
  by_cases hl : l = k
  · subst hl
    rw [Function.update_self]
    refine iff_of_false nofun ?_
    rintro ⟨hheld, hwatched⟩
    obtain rfl := h.unique i j l hk hheld
    rw [Function.update_self] at hwatched
    cases hwatched
  · rw [Function.update_of_ne hl, h.lookup_iff]
    refine and_congr_right fun hheld => ?_
    rw [Function.update_of_ne]
    rintro rfl
    rw [hk] at hheld
    exact hl (Option.some.inj hheld).symm

theorem release (h : Accounts reserved live held watched lookup) (hk : held i = some k)
    (hunwatched : watched i = false) :
    Accounts reserved (live.erase k) (Function.update held i none) watched lookup := by
  have hother : ∀ j l, Function.update held i none j = some l → j ≠ i ∧ held j = some l := by
    intro j l hj
    by_cases hji : j = i
    · subst hji
      rw [Function.update_self] at hj
      cases hj
    · rw [Function.update_of_ne hji] at hj
      exact ⟨hji, hj⟩
  refine ⟨?_, ?_, ?_, ?_⟩
  · intro j j' l hj hj'
    exact h.unique j j' l (hother j l hj).2 (hother j' l hj').2
  · intro j l hj
    exact h.not_reserved j l (hother j l hj).2
  · intro l
    rw [Finset.mem_erase, h.mem_iff]
    constructor
    · rintro ⟨hne, hmem | ⟨j, hj⟩⟩
      · exact Or.inl hmem
      · refine Or.inr ⟨j, ?_⟩
        rw [Function.update_of_ne, hj]
        rintro rfl
        rw [hk] at hj
        exact hne (Option.some.inj hj).symm
    · rintro (hmem | ⟨j, hj⟩)
      · refine ⟨?_, Or.inl hmem⟩
        rintro rfl
        exact h.not_reserved i l hk hmem
      · obtain ⟨hne, hheld⟩ := hother j l hj
        refine ⟨?_, Or.inr ⟨j, hheld⟩⟩
        rintro rfl
        exact hne (h.unique j i l hheld hk)
  · intro l j
    rw [h.lookup_iff]
    refine and_congr_left fun hwatched => ?_
    rw [Function.update_of_ne]
    rintro rfl
    rw [hunwatched] at hwatched
    cases hwatched

end

end Accounts
end Ownership
