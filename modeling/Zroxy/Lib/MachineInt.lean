import Mathlib.Tactic.Ring

/-!
# Integer arithmetic in a register

A `w`-bit register reads an integer modulo `2 ^ w`, balanced around 0. An
expression evaluated in registers wraps at each operation; `IntExpr.result` is
what comes out, `IntExpr.value` what the operations mean on the integers, and
`IntExpr.Exact` says that no operation on the way leaves the register. The law
is `Exact.result_eq`: an evaluation in which nothing wraps gives the value.
-/

namespace MachineInt

variable {w : ℕ} {n : ℤ}

/-- What a `w`-bit register holds of an integer. -/
def wrap (w : ℕ) (n : ℤ) : ℤ := n.bmod (2 ^ w)

/-- The integer is one of those a `w`-bit register can hold. -/
def Representable (w : ℕ) (n : ℤ) : Prop := -2 ^ w ≤ n * 2 ∧ n * 2 < 2 ^ w

instance (w : ℕ) (n : ℤ) : Decidable (Representable w n) :=
  inferInstanceAs (Decidable (_ ∧ _))

theorem representable_succ_iff : Representable (w + 1) n ↔ -2 ^ w ≤ n ∧ n < 2 ^ w := by
  unfold Representable
  rw [pow_succ]
  omega

theorem representable_wrap (w : ℕ) (n : ℤ) : Representable w (wrap w n) := by
  have hpos : 0 < 2 ^ w := Nat.two_pow_pos w
  have hle := Int.le_bmod (x := n) hpos
  have hlt := Int.bmod_lt (x := n) hpos
  unfold Representable wrap
  push_cast at hle hlt
  constructor <;> omega

theorem wrap_of_representable (h : Representable w n) : wrap w n = n :=
  Int.bmod_eq_of_le_mul_two (by push_cast; exact h.1) (by push_cast; exact h.2)

theorem wrap_eq_self_iff : wrap w n = n ↔ Representable w n := by
  constructor
  · intro h
    rw [← h]
    exact representable_wrap w n
  · exact wrap_of_representable

/-! ## Expressions -/

/-- What an expression of machine integers is made of. -/
inductive IntExpr where
  | lit (n : ℤ)
  | add (e f : IntExpr)
  | sub (e f : IntExpr)
  | mul (e f : IntExpr)

namespace IntExpr

def value : IntExpr → ℤ
  | lit n => n
  | add e f => e.value + f.value
  | sub e f => e.value - f.value
  | mul e f => e.value * f.value

/-- The result in `w`-bit registers. -/
def result (w : ℕ) : IntExpr → ℤ
  | lit n => n
  | add e f => wrap w (e.result w + f.result w)
  | sub e f => wrap w (e.result w - f.result w)
  | mul e f => wrap w (e.result w * f.result w)

/-- No operation wraps. -/
def Exact (w : ℕ) : IntExpr → Prop
  | lit _ => True
  | add e f => e.Exact w ∧ f.Exact w ∧ Representable w (e.result w + f.result w)
  | sub e f => e.Exact w ∧ f.Exact w ∧ Representable w (e.result w - f.result w)
  | mul e f => e.Exact w ∧ f.Exact w ∧ Representable w (e.result w * f.result w)

/-- **Nothing wraps, nothing is lost.** -/
theorem Exact.result_eq {e : IntExpr} (h : e.Exact w) : e.result w = e.value := by
  induction e with
  | lit n => rfl
  | add e f ihe ihf =>
      rw [result, wrap_of_representable h.2.2, ihe h.1, ihf h.2.1, value]
  | sub e f ihe ihf =>
      rw [result, wrap_of_representable h.2.2, ihe h.1, ihf h.2.1, value]
  | mul e f ihe ihf =>
      rw [result, wrap_of_representable h.2.2, ihe h.1, ihf h.2.1, value]

section

variable {e f : IntExpr}

theorem exact_add_iff :
    (add e f).Exact w ↔ e.Exact w ∧ f.Exact w ∧ Representable w (e.value + f.value) := by
  refine and_congr_right fun he => and_congr_right fun hf => ?_
  rw [he.result_eq, hf.result_eq]

theorem exact_sub_iff :
    (sub e f).Exact w ↔ e.Exact w ∧ f.Exact w ∧ Representable w (e.value - f.value) := by
  refine and_congr_right fun he => and_congr_right fun hf => ?_
  rw [he.result_eq, hf.result_eq]

theorem exact_mul_iff :
    (mul e f).Exact w ↔ e.Exact w ∧ f.Exact w ∧ Representable w (e.value * f.value) := by
  refine and_congr_right fun he => and_congr_right fun hf => ?_
  rw [he.result_eq, hf.result_eq]

end

end IntExpr
end MachineInt
