import Mathlib.Data.Nat.Find
import Mathlib.Data.Stream.Init
import Zroxy.Lib.Runs

/-!
# Parsers that are called again with more input

A parser that may run out of input has three kinds of verdict: a result, an
error that says that the input is `incomplete`, and the other errors, which are
final. `Later grow v v'` says that `v'` may follow `v` once there is more input:
a result grows by `grow`, a final error stays, and `incomplete` promises nothing.
It is the order of a flat domain with `incomplete` at the bottom, and binds are
monotone in it.

A parser of whole messages `Decides` when its verdicts are monotone in the
input and a result needs no more than the front that it consumed. Then, along
every stream of input, it says `incomplete` up to one point and never changes
its mind behind that point (`Decides.settles`).

`scan` is the loop most such parsers are made of: it stops in front of the first
element that ends a token and fails at one that may not be part of it.
-/

namespace Incremental

open Runs

variable {ε σ α β γ δ : Type*} {incomplete : ε}

/-! ## Verdicts -/

/-- The verdict `v'` may follow `v` when there is more input. -/
structure Later (incomplete : ε) (grow : α → β) (v : Except ε α) (v' : Except ε β) : Prop where
  ok : ∀ a, v = .ok a → v' = .ok (grow a)
  error : ∀ e, v = .error e → e ≠ incomplete → v' = .error e

namespace Later

variable {grow : α → β} {v : Except ε α} {v' : Except ε β}

theorem of_incomplete (grow : α → β) (v' : Except ε β) :
    Later incomplete grow (.error incomplete) v' := by
  constructor
  · intro a h
    cases h
  · intro e h hne
    cases h
    exact absurd rfl hne

theorem of_error (grow : α → β) (e : ε) :
    Later incomplete grow (.error e) (.error e : Except ε β) := by
  constructor
  · intro a h
    cases h
  · intro e' h _
    cases h
    rfl

theorem of_ok {a : α} {b : β} (h : grow a = b) :
    Later incomplete grow (.ok a) (.ok b : Except ε β) := by
  constructor
  · intro a' ha'
    cases ha'
    rw [h]
  · intro e he
    cases he

theorem same (v : Except ε α) : Later incomplete id v v :=
  ⟨fun _ h => h, fun _ h _ => h⟩

theorem bind {f : α → Except ε γ} {f' : β → Except ε δ} {grow' : γ → δ}
    (h : Later incomplete grow v v')
    (hnext : ∀ a, v = .ok a → Later incomplete grow' (f a) (f' (grow a))) :
    Later incomplete grow' (v.bind f) (v'.bind f') := by
  cases hv : v with
  | ok a =>
      rw [h.ok a hv]
      exact hnext a hv
  | error e =>
      constructor
      · intro c hc
        cases hc
      · intro e' he' hne
        cases he'
        rw [h.error e hv hne]
        rfl

end Later

/-! ## Scanning -/

/-- The loop of a scanner: on to the first element that stops it, unless a bad
one comes before. -/
def scan (incomplete invalid : ε) (stop bad : σ → Bool) : List σ → Except ε (List σ)
  | [] => .error incomplete
  | c :: buf =>
      if stop c then .ok (c :: buf)
      else if bad c then .error invalid
      else scan incomplete invalid stop bad buf

section Scan

variable {invalid : ε} {stop bad : σ → Bool} {buf rest more : List σ}

theorem scan_of_stop {c : σ} (h : stop c = true) (buf : List σ) :
    scan incomplete invalid stop bad (c :: buf) = .ok (c :: buf) := by
  rw [scan, if_pos h]

theorem scan_of_pass {c : σ} (hstop : stop c = false) (hbad : bad c = false) (buf : List σ) :
    scan incomplete invalid stop bad (c :: buf) = scan incomplete invalid stop bad buf := by
  rw [scan, if_neg (by simp [hstop]), if_neg (by simp [hbad])]

theorem scan_append {token : List σ}
    (h : ∀ c ∈ token, stop c = false ∧ bad c = false) (buf : List σ) :
    scan incomplete invalid stop bad (token ++ buf) = scan incomplete invalid stop bad buf := by
  induction token with
  | nil => rfl
  | cons c token ih =>
      obtain ⟨⟨hstop, hbad⟩, htoken⟩ := List.forall_mem_cons.mp h
      rw [List.cons_append, scan_of_pass hstop hbad, ih htoken]

/-- **What a scanner accepts**: a token, and then the element that stopped it. -/
theorem scan_ok_iff :
    scan incomplete invalid stop bad buf = .ok rest ↔
      ∃ token, buf = token ++ rest ∧ (∀ c ∈ token, stop c = false ∧ bad c = false) ∧
        ∃ c ∈ rest.head?, stop c = true := by
  constructor
  · intro h
    induction buf with
    | nil => cases h
    | cons c buf ih =>
        rw [scan] at h
        split at h
        · cases h
          exact ⟨[], rfl, by simp, c, rfl, ‹_›⟩
        · split at h
          · cases h
          · obtain ⟨token, rfl, htoken, hhead⟩ := ih h
            refine ⟨c :: token, rfl, ?_, hhead⟩
            exact List.forall_mem_cons.mpr ⟨⟨by simpa using ‹¬ stop c = true›,
              by simpa using ‹¬ bad c = true›⟩, htoken⟩
  · rintro ⟨token, rfl, htoken, c, hc, hstop⟩
    rw [scan_append htoken]
    cases rest with
    | nil => cases hc
    | cons d rest =>
        cases hc
        exact scan_of_stop hstop rest

theorem scan_later (buf more : List σ) :
    Later incomplete (· ++ more) (scan incomplete invalid stop bad buf)
      (scan incomplete invalid stop bad (buf ++ more)) := by
  induction buf with
  | nil => exact Later.of_incomplete _ _
  | cons c buf ih =>
      rw [List.cons_append, scan, scan]
      split
      · exact Later.of_ok rfl
      · split
        · exact Later.of_error _ _
        · exact ih

end Scan

/-! ## Parsers of messages -/

/-- Verdicts are monotone in the input, and a result depends on the front that
it consumed only. -/
structure Decides (incomplete : ε) (P : List σ → Except ε α) (consumed : α → ℕ) : Prop where
  later : ∀ w x, Later incomplete id (P w) (P (w ++ x))
  front : ∀ w r, P w = .ok r → consumed r ≤ w.length ∧ P (w.take (consumed r)) = .ok r

namespace Decides

variable {P : List σ → Except ε α} {consumed : α → ℕ}

theorem stays (h : Decides incomplete P consumed) {w : List σ} (x : List σ)
    (hw : P w ≠ .error incomplete) : P (w ++ x) = P w := by
  cases hv : P w with
  | ok r => exact (h.later w x).ok r hv
  | error e =>
      refine (h.later w x).error e hv ?_
      rintro rfl
      exact hw hv

/-- **The fronts of an accepted input**: incomplete as long as something of the
message is missing, and accepted with the same result from then on. -/
theorem take_of_ok (h : Decides incomplete P consumed) {w : List σ} {r : α}
    (hr : P w = .ok r) (n : ℕ) :
    P (w.take n) = if n < consumed r then .error incomplete else .ok r := by
  obtain ⟨hle, hfront⟩ := h.front w r hr
  split
  · rename_i hn
    by_contra hne
    have hstays := h.stays (w.drop n) hne
    rw [List.take_append_drop, hr] at hstays
    have hshort := (h.front _ r hstays.symm).1
    rw [List.length_take] at hshort
    exact absurd (Nat.le_trans hshort (Nat.min_le_left _ _)) (Nat.not_le.mpr hn)
  · rename_i hn
    have htake : w.take n = w.take (consumed r) ++ (w.take n).drop (consumed r) := by
      have hsplit := List.take_append_drop (consumed r) (w.take n)
      rw [List.take_take, min_eq_left (Nat.not_lt.mp hn)] at hsplit
      exact hsplit.symm
    rw [htake]
    exact (h.later _ _).ok r hfront

/-- **Along a stream of input** the parser says `incomplete` up to one point and
keeps its verdict behind it; a message is accepted as soon as it is there. -/
theorem settles (h : Decides incomplete P consumed) (s : Stream' σ) :
    (∀ n, P (s.take n) = .error incomplete) ∨
      ∃ k v, v ≠ .error incomplete ∧ (∀ r, v = .ok r → k = consumed r) ∧
        ∀ n, P (s.take n) = if n < k then .error incomplete else v := by
  classical
  by_cases hall : ∀ n, P (s.take n) = .error incomplete
  · exact Or.inl hall
  · rw [not_forall] at hall
    have hleast : ∀ n, n < Nat.find hall → P (s.take n) = .error incomplete :=
      fun n hn => not_not.mp (Nat.find_min hall hn)
    have hverdict : ∀ n, P (s.take n) =
        if n < Nat.find hall then .error incomplete else P (s.take (Nat.find hall)) := by
      intro n
      split
      · exact hleast n ‹_›
      · rename_i hn
        obtain ⟨m, hm⟩ := Nat.exists_eq_add_of_le (Nat.not_lt.mp hn)
        have htake := Stream'.append_take m (s.take (Nat.find hall)) (s.drop (Nat.find hall))
        rw [Stream'.append_take_drop, Stream'.length_take, ← hm] at htake
        rw [← htake]
        exact h.stays _ (Nat.find_spec hall)
    refine Or.inr ⟨Nat.find hall, P (s.take (Nat.find hall)), Nat.find_spec hall, ?_, hverdict⟩
    intro r hr
    obtain ⟨hle, hfront⟩ := h.front _ r hr
    rw [Stream'.length_take] at hle
    rw [Stream'.take_take, min_eq_right hle] at hfront
    refine le_antisymm ?_ hle
    by_contra hlt
    rw [hleast _ (Nat.not_le.mp hlt)] at hfront
    cases hfront

end Decides

end Incremental
