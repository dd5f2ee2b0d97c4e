import Mathlib.Data.List.Basic

/-!
# Transducers

A machine that reads its input an element at a time, puts out some elements for
each of them, and at some point may be done or fail. `feed` runs it on a list:
it is done behind the element that finished it and fails in front of the one it
did not take, and what it has not read is handed back.

The law of such machines is that it does not matter how the input is cut:
feeding two pieces one after the other is feeding them at once (`feed_append`).
What every step keeps holds of the state in the end (`feed_invariant`).
-/

namespace Transducers

variable {σ α β : Type*}

/-- What a machine does with an element. -/
inductive Step (σ β : Type*) where
  | next (s : σ) (out : List β)
  | stop (s : σ) (out : List β)
  | fail (s : σ)

inductive Verdict where
  | more
  | done
  | failed
deriving DecidableEq, Repr

structure Outcome (σ α β : Type*) where
  verdict : Verdict
  state : σ
  out : List β
  rest : List α

def feed (step : σ → α → Step σ β) : σ → List α → Outcome σ α β
  | s, [] => ⟨.more, s, [], []⟩
  | s, a :: as =>
      match step s a with
      | .next s' out => { feed step s' as with out := out ++ (feed step s' as).out }
      | .stop s' out => ⟨.done, s', out, as⟩
      | .fail s' => ⟨.failed, s', [], a :: as⟩

/-- More input behind an outcome: it goes on if the machine wants more, and is
not looked at otherwise. -/
def Outcome.feed (step : σ → α → Step σ β) (o : Outcome σ α β) (more : List α) :
    Outcome σ α β :=
  match o.verdict with
  | .more =>
      { Transducers.feed step o.state more with
        out := o.out ++ (Transducers.feed step o.state more).out }
  | _ => { o with rest := o.rest ++ more }

variable {step : σ → α → Step σ β} {s s' : σ} {a : α} {as xs ys : List α} {out : List β}

/-! ## One element -/

theorem feed_next (h : step s a = .next s' out) :
    feed step s (a :: as) = { feed step s' as with out := out ++ (feed step s' as).out } := by
  rw [feed, h]

theorem feed_stop (h : step s a = .stop s' out) :
    feed step s (a :: as) = ⟨.done, s', out, as⟩ := by
  rw [feed, h]

theorem feed_fail (h : step s a = .fail s') :
    feed step s (a :: as) = ⟨.failed, s', [], a :: as⟩ := by
  rw [feed, h]

theorem feed_silent (h : step s a = .next s' []) :
    feed step s (a :: as) = feed step s' as := by
  rw [feed_next h]
  rfl

/-! ## Cutting the input -/

/-- **Feeding two pieces** is feeding the first one, and the second one behind it. -/
theorem feed_append (s : σ) (xs ys : List α) :
    feed step s (xs ++ ys) = (feed step s xs).feed step ys := by
  induction xs generalizing s with
  | nil => rfl
  | cons a xs ih =>
      rw [List.cons_append]
      cases hstep : step s a with
      | next s' out =>
          rw [feed_next hstep, feed_next hstep, ih]
          unfold Outcome.feed
          cases (feed step s' xs).verdict <;> simp
      | stop s' out =>
          rw [feed_stop hstep, feed_stop hstep]
          rfl
      | fail s' =>
          rw [feed_fail hstep, feed_fail hstep]
          rfl

theorem Outcome.feed_of_more {o : Outcome σ α β} (h : o.verdict = .more) (more : List α) :
    o.feed step more = { Transducers.feed step o.state more with
      out := o.out ++ (Transducers.feed step o.state more).out } := by
  rw [Outcome.feed, h]

/-! ## What is kept -/

def Step.state : Step σ β → σ
  | .next s _ => s
  | .stop s _ => s
  | .fail s => s

theorem feed_invariant {I : σ → Prop} (hstep : ∀ s a, I s → I (step s a).state) (hs : I s) :
    I (feed step s as).state := by
  induction as generalizing s with
  | nil => exact hs
  | cons a as ih =>
      have hkept := hstep s a hs
      cases hcase : step s a with
      | next s' out =>
          rw [hcase] at hkept
          rw [feed_next hcase]
          exact ih hkept
      | stop s' out =>
          rw [hcase] at hkept
          rw [feed_stop hcase]
          exact hkept
      | fail s' =>
          rw [hcase] at hkept
          rw [feed_fail hcase]
          exact hkept

end Transducers
