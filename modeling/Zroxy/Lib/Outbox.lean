import Mathlib.Data.List.Basic

/-!
# An outbox that is emptied now and then

A sequence of calls each put some values into an outbox, and behind some of the
calls the outbox is emptied, oldest value first. `emptied` is what has been taken
out in the end, `leftover` what is still there.

`collected_iff` is the rule: nothing that the calls have put in is left exactly
when each call that puts something in is followed by an emptying, its own or a
later one. What was in the outbox before does not matter.
-/

namespace Outbox

universe u
variable {α : Type u}

/-- One call: what it puts in, and whether the outbox is emptied behind it. -/
structure Call (α : Type u) where
  written : List α
  empties : Bool

def written (cs : List (Call α)) : List α := cs.flatMap Call.written

/-- What is in the outbox after the calls, `held` being in it before. -/
def leftover : List α → List (Call α) → List α
  | held, [] => held
  | held, c :: cs => leftover (if c.empties then [] else held ++ c.written) cs

/-- What has been taken out. -/
def emptied : List α → List (Call α) → List α
  | _, [] => []
  | held, c :: cs =>
      if c.empties then held ++ c.written ++ emptied [] cs else emptied (held ++ c.written) cs

/-- Each call that puts something in is followed by an emptying. -/
def Collected : List (Call α) → Prop
  | [] => True
  | c :: cs => (c.written = [] ∨ ∃ d ∈ c :: cs, d.empties = true) ∧ Collected cs

variable {held : List α} {c : Call α} {cs : List (Call α)}

@[simp] theorem written_cons (c : Call α) (cs : List (Call α)) :
    written (c :: cs) = c.written ++ written cs := rfl

theorem emptied_append_leftover (held : List α) (cs : List (Call α)) :
    emptied held cs ++ leftover held cs = held ++ written cs := by
  induction cs generalizing held with
  | nil => exact (List.append_nil held).symm
  | cons c cs ih =>
      unfold emptied leftover
      split
      · rw [List.append_assoc, ih, List.nil_append, List.append_assoc, written_cons]
      · rw [ih, List.append_assoc, written_cons]

theorem emptied_eq_iff : emptied held cs = held ++ written cs ↔ leftover held cs = [] := by
  rw [← emptied_append_leftover held cs, List.self_eq_append_right]

theorem leftover_of_none (h : ¬ ∃ d ∈ cs, d.empties = true) :
    leftover held cs = held ++ written cs := by
  induction cs generalizing held with
  | nil => exact (List.append_nil held).symm
  | cons c cs ih =>
      obtain ⟨hc, hcs⟩ := List.forall_mem_cons.mp fun d hd hd' => h ⟨d, hd, hd'⟩
      rw [leftover, if_neg hc, ih fun ⟨d, hd, hd'⟩ => hcs d hd hd', List.append_assoc,
        written_cons]

theorem leftover_of_some (h : ∃ d ∈ cs, d.empties = true) (held held' : List α) :
    leftover held cs = leftover held' cs := by
  induction cs generalizing held held' with
  | nil => simp at h
  | cons c cs ih =>
      unfold leftover
      by_cases hc : c.empties = true
      · rw [if_pos hc, if_pos hc]
      · rw [if_neg hc, if_neg hc]
        apply ih
        obtain ⟨d, hd, hempties⟩ := h
        rcases List.mem_cons.mp hd with rfl | hd
        · exact absurd hempties hc
        · exact ⟨d, hd, hempties⟩

theorem leftover_nil (h : written cs = []) : leftover [] cs = [] := by
  have hconserved := emptied_append_leftover [] cs
  rw [h, List.append_nil, List.append_eq_nil_iff] at hconserved
  exact hconserved.2

/-- **The rule**: what the calls put in has been taken out exactly when they are
collected. -/
theorem collected_iff (held : List α) (cs : List (Call α)) :
    Collected cs ↔ written cs = [] ∨ leftover held cs = [] := by
  induction cs generalizing held with
  | nil => exact iff_of_true trivial (Or.inl rfl)
  | cons c cs ih =>
      have hrest : Collected cs ↔ leftover [] cs = [] :=
        (ih []).trans (or_iff_right_of_imp leftover_nil)
      unfold Collected
      by_cases hsome : ∃ d ∈ c :: cs, d.empties = true
      · -- from the first emptying on, the outbox is as if it had been empty
        have hleft : leftover [] (c :: cs) = leftover [] cs := by
          rw [leftover]
          split
          · rfl
          · obtain ⟨d, hd, hempties⟩ := hsome
            rcases List.mem_cons.mp hd with rfl | hd
            · exact absurd hempties ‹_›
            · exact leftover_of_some ⟨d, hd, hempties⟩ _ _
        rw [and_iff_right (Or.inr hsome), hrest, leftover_of_some hsome held [], ← hleft]
        exact (or_iff_right_of_imp leftover_nil).symm
      · -- there is no emptying at all
        have hsome' : ¬ ∃ d ∈ cs, d.empties = true := fun ⟨d, hd, hempties⟩ =>
          hsome ⟨d, List.mem_cons_of_mem _ hd, hempties⟩
        rw [or_iff_left hsome, hrest, leftover_of_none hsome, leftover_of_none hsome',
          List.nil_append, written_cons, List.append_eq_nil_iff, List.append_eq_nil_iff,
          List.append_eq_nil_iff]
        exact (or_iff_left_of_imp And.right).symm

end Outbox
