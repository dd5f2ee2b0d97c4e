import Mathlib.Data.Nat.Notation
import Mathlib.Logic.Relation

/-!
# While loops

`whileLoop guard body fuel s` runs `while (guard s) s = body s;` and looks at the
guard at most `fuel` times. `Ends` says that some amount of fuel is enough, and
`Visits` relates a state to those in which the guard is evaluated on the way.

The rules: a loop ends in a state it visits and that fails the guard
(`ends_iff`), at once or after one turn more (`ends_of_done`, `ends_iff_of_turn`);
what the body keeps holds wherever the loop comes (`Visits.invariant`); a loop
whose invariant keeps the guard true never ends (`not_ends_of_invariant`).
-/

namespace Loops

universe u
variable {σ : Type u}

def whileLoop (guard : σ → Bool) (body : σ → σ) : ℕ → σ → Option σ
  | 0, _ => none
  | fuel + 1, s => if guard s then whileLoop guard body fuel (body s) else some s

/-- The loop, begun in `s`, ends in `t`. -/
def Ends (guard : σ → Bool) (body : σ → σ) (s t : σ) : Prop :=
  ∃ fuel, whileLoop guard body fuel s = some t

def Turn (guard : σ → Bool) (body : σ → σ) (s t : σ) : Prop := guard s = true ∧ body s = t

/-- The loop, begun in `s`, evaluates its guard in `t`. -/
def Visits (guard : σ → Bool) (body : σ → σ) : σ → σ → Prop :=
  Relation.ReflTransGen (Turn guard body)

variable {guard : σ → Bool} {body : σ → σ} {s t : σ} {I : σ → Prop}

theorem ends_of_done (h : guard s = false) : Ends guard body s s := by
  refine ⟨1, ?_⟩
  rw [whileLoop, if_neg (by simp [h])]

theorem ends_iff_of_turn (h : guard s = true) :
    Ends guard body s t ↔ Ends guard body (body s) t := by
  constructor
  · rintro ⟨fuel, hrun⟩
    cases fuel with
    | zero => cases hrun
    | succ fuel =>
        rw [whileLoop, if_pos h] at hrun
        exact ⟨fuel, hrun⟩
  · rintro ⟨fuel, hrun⟩
    refine ⟨fuel + 1, ?_⟩
    rw [whileLoop, if_pos h]
    exact hrun

/-- **Where a loop ends.** -/
theorem ends_iff : Ends guard body s t ↔ Visits guard body s t ∧ guard t = false := by
  constructor
  · rintro ⟨fuel, hrun⟩
    induction fuel generalizing s with
    | zero => cases hrun
    | succ fuel ih =>
        rw [whileLoop] at hrun
        split at hrun
        · obtain ⟨hvisits, hdone⟩ := ih hrun
          exact ⟨.head ⟨‹_›, rfl⟩ hvisits, hdone⟩
        · cases hrun
          exact ⟨.refl, Bool.not_eq_true _ ▸ ‹_›⟩
  · rintro ⟨hvisits, hdone⟩
    induction hvisits using Relation.ReflTransGen.head_induction_on with
    | refl => exact ends_of_done hdone
    | head hturn _ ih =>
        obtain ⟨hguard, rfl⟩ := hturn
        exact (ends_iff_of_turn hguard).mpr ih

/-- **Invariants.** -/
theorem Visits.invariant (h : Visits guard body s t)
    (hbody : ∀ r, I r → guard r = true → I (body r)) (hs : I s) : I t := by
  induction h with
  | refl => exact hs
  | tail _ hturn ih =>
      obtain ⟨hguard, rfl⟩ := hturn
      exact hbody _ ih hguard

/-- **Divergence.** -/
theorem not_ends_of_invariant (hguard : ∀ r, I r → guard r = true)
    (hbody : ∀ r, I r → I (body r)) (hs : I s) : ¬ Ends guard body s t := by
  intro h
  obtain ⟨hvisits, hdone⟩ := ends_iff.mp h
  have ht := hvisits.invariant (fun r hr _ => hbody r hr) hs
  exact absurd hdone (by simp [hguard t ht])

end Loops
