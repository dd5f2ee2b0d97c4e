import Mathlib.Data.Stream.Init

/-!
# Runs of a partial machine

A machine is a step function `σ → ε → Except φ σ`: on an event it either
reaches the next state or stops with a fault. `Always step P s es` says that
`P` holds in every state a run over `es` visits, the first one included;
`EachStep step C s es` says that every step the run really takes satisfies the
condition `C` on the state before it and the event.

`always_iff_eachStep` is the rule for exact conditions: when, under an
invariant, one step keeps `P` exactly if it satisfies `C`, then a whole run
keeps `P` exactly if each of its steps satisfies `C`. Where `P` is about what the
run has done so far, the machine is `recorded`.

A loop that asks its environment once a turn is a function of the answers so
far. `Ends` says that finitely many of an unending stream of answers are enough
for it to return.
-/

namespace Runs

universe u v w
variable {σ : Type u} {ε : Type v} {φ : Type w}

theorem bind_ok {α β : Type*} {x : Except φ α} {f : α → Except φ β} {r : β}
    (h : x.bind f = .ok r) : ∃ a, x = .ok a ∧ f a = .ok r := by
  cases x with
  | error e => simp [Except.bind] at h
  | ok a => exact ⟨a, rfl, h⟩

theorem bind_error_iff {α β : Type*} {x : Except φ α} {f : α → Except φ β} {e : φ} :
    x.bind f = .error e ↔ x = .error e ∨ ∃ a, x = .ok a ∧ f a = .error e := by
  cases x with
  | error e' => simp [Except.bind]
  | ok a => simp [Except.bind]

/-- `P` holds in every state visited. -/
def Always (step : σ → ε → Except φ σ) (P : σ → Prop) : σ → List ε → Prop
  | s, [] => P s
  | s, e :: es => P s ∧ ∀ s', step s e = .ok s' → Always step P s' es

/-- Every step taken satisfies `C`. -/
def EachStep (step : σ → ε → Except φ σ) (C : σ → ε → Prop) : σ → List ε → Prop
  | _, [] => True
  | s, e :: es => ∀ s', step s e = .ok s' → C s e ∧ EachStep step C s' es

variable {step : σ → ε → Except φ σ} {P I : σ → Prop} {C : σ → ε → Prop}

theorem Always.head {s : σ} {es : List ε} (h : Always step P s es) : P s := by
  cases es with
  | nil => exact h
  | cons e es => exact h.1

/-- An invariant of the steps holds along every run. -/
theorem always_of_invariant (hstep : ∀ s e s', I s → step s e = .ok s' → I s')
    {s : σ} (hs : I s) (es : List ε) : Always step I s es := by
  induction es generalizing s with
  | nil => exact hs
  | cons e es ih => exact ⟨hs, fun s' hs' => ih (hstep s e s' hs hs')⟩

theorem Always.mono {Q : σ → Prop} (hPQ : ∀ s, P s → Q s) {s : σ} {es : List ε}
    (h : Always step P s es) : Always step Q s es := by
  induction es generalizing s with
  | nil => exact hPQ s h
  | cons e es ih => exact ⟨hPQ s h.1, fun s' hs' => ih (h.2 s' hs')⟩

/-- An invariant of the steps that satisfy `C` holds along every run whose steps
all do. -/
theorem always_of_eachStep (hstep : ∀ s e s', I s → C s e → step s e = .ok s' → I s')
    {s : σ} (hs : I s) {es : List ε} (h : EachStep step C s es) : Always step I s es := by
  induction es generalizing s with
  | nil => exact hs
  | cons e es ih =>
      refine ⟨hs, fun s' hs' => ?_⟩
      obtain ⟨hC, hrest⟩ := h s' hs'
      exact ih (hstep s e s' hs hC hs') hrest

theorem eachStep_of_mem {C : ε → Prop} {es : List ε} (h : ∀ e ∈ es, C e) (s : σ) :
    EachStep step (fun _ => C) s es := by
  induction es generalizing s with
  | nil => trivial
  | cons e es ih =>
      obtain ⟨he, hes⟩ := List.forall_mem_cons.mp h
      exact fun s' _ => ⟨he, ih hes s'⟩

/-- **Exact conditions.** Under an invariant that lasts as long as `P` does, a run
whose steps all satisfy `H` keeps `P` exactly when each of them satisfies `C`. -/
theorem always_iff_eachStep_of {H : σ → ε → Prop}
    (hexact : ∀ s e s', I s → P s → H s e → step s e = .ok s' → (P s' ↔ C s e))
    (hinv : ∀ s e s', I s → P s → H s e → step s e = .ok s' → P s' → I s')
    {s : σ} (hs : I s) (hP : P s) {es : List ε} (hH : EachStep step H s es) :
    Always step P s es ↔ EachStep step C s es := by
  induction es generalizing s with
  | nil => exact ⟨fun _ => trivial, fun _ => hP⟩
  | cons e es ih =>
      constructor
      · intro h s' hs'
        obtain ⟨hfirst, hrest⟩ := hH s' hs'
        have hP' : P s' := (h.2 s' hs').head
        have hs'' : I s' := hinv s e s' hs hP hfirst hs' hP'
        exact ⟨(hexact s e s' hs hP hfirst hs').mp hP', (ih hs'' hP' hrest).mp (h.2 s' hs')⟩
      · intro h
        refine ⟨hP, fun s' hs' => ?_⟩
        obtain ⟨hfirst, hrest⟩ := hH s' hs'
        obtain ⟨hC, hCs⟩ := h s' hs'
        have hP' : P s' := (hexact s e s' hs hP hfirst hs').mpr hC
        exact (ih (hinv s e s' hs hP hfirst hs' hP') hP' hrest).mpr hCs

theorem always_iff_eachStep
    (hexact : ∀ s e s', I s → P s → step s e = .ok s' → (P s' ↔ C s e))
    (hinv : ∀ s e s', I s → P s → step s e = .ok s' → P s' → I s')
    {s : σ} (hs : I s) (hP : P s) (es : List ε) :
    Always step P s es ↔ EachStep step C s es :=
  always_iff_eachStep_of (H := fun _ _ => True) (fun s e s' hI hP _ => hexact s e s' hI hP)
    (fun s e s' hI hP _ => hinv s e s' hI hP) hs hP (eachStep_of_mem (fun _ _ => trivial) s)

/-- The state a run over `es` ends in. -/
def run (step : σ → ε → Except φ σ) : σ → List ε → Except φ σ
  | s, [] => .ok s
  | s, e :: es => (step s e).bind fun s' => run step s' es

theorem run_cons_ok {s t : σ} {e : ε} {es : List ε}
    (h : run step s (e :: es) = .ok t) :
    ∃ s', step s e = .ok s' ∧ run step s' es = .ok t :=
  bind_ok h

theorem run_append {s t u : σ} {es es' : List ε} (h : run step s es = .ok t)
    (h' : run step t es' = .ok u) : run step s (es ++ es') = .ok u := by
  induction es generalizing s with
  | nil =>
      cases h
      exact h'
  | cons e es ih =>
      obtain ⟨s', hs', hrest⟩ := run_cons_ok h
      rw [List.cons_append, run, hs']
      exact ih hrest

theorem Always.last {s t : σ} {es : List ε} (h : Always step P s es)
    (hrun : run step s es = .ok t) : P t := by
  induction es generalizing s with
  | nil =>
      cases hrun
      exact h
  | cons e es ih =>
      obtain ⟨s', hs', hrest⟩ := run_cons_ok hrun
      exact ih (h.2 s' hs') hrest

/-! ## Records -/

section Records

variable {α : Type*} {out : σ → ε → List α} {s s' : σ} {l l' : List α} {e : ε}

/-- The machine that also keeps what `out` says of each of its steps, oldest first. -/
def recorded (step : σ → ε → Except φ σ) (out : σ → ε → List α) (x : σ × List α) (e : ε) :
    Except φ (σ × List α) :=
  (step x.1 e).map fun s' => (s', x.2 ++ out x.1 e)

theorem recorded_ok_iff :
    recorded step out (s, l) e = .ok (s', l') ↔ step s e = .ok s' ∧ l' = l ++ out s e := by
  unfold recorded
  cases step s e with
  | error f => simp [Except.map]
  | ok t => simp [Except.map, eq_comm]

theorem eachStep_recorded_iff {es : List ε} :
    EachStep (recorded step out) (fun x e => C x.1 e) (s, l) es ↔ EachStep step C s es := by
  induction es generalizing s l with
  | nil => exact Iff.rfl
  | cons e es ih =>
      constructor
      · intro h s' hs'
        obtain ⟨hC, hrest⟩ := h (s', _) (recorded_ok_iff.mpr ⟨hs', rfl⟩)
        exact ⟨hC, ih.mp hrest⟩
      · rintro h ⟨s', l'⟩ hs'
        obtain ⟨hstep, rfl⟩ := recorded_ok_iff.mp hs'
        obtain ⟨hC, hrest⟩ := h s' hstep
        exact ⟨hC, ih.mpr hrest⟩

/-- What a record says under the key `k`. -/
def recordOf {κ : Type*} [DecidableEq κ] (k : κ) (l : List (κ × α)) : List α :=
  l.filterMap fun x => if x.1 = k then some x.2 else none

variable {κ : Type*} [DecidableEq κ] {k : κ}

@[simp] theorem recordOf_nil (k : κ) : recordOf k ([] : List (κ × α)) = [] := rfl

@[simp] theorem recordOf_append (k : κ) (l l' : List (κ × α)) :
    recordOf k (l ++ l') = recordOf k l ++ recordOf k l' :=
  List.filterMap_append

@[simp] theorem recordOf_map (k : κ) (xs : List α) : recordOf k (xs.map fun x => (k, x)) = xs := by
  induction xs with
  | nil => rfl
  | cons x xs ih =>
      have hhead : recordOf k ((k, x) :: xs.map fun x => (k, x)) =
          x :: recordOf k (xs.map fun x => (k, x)) := List.filterMap_cons_some (if_pos rfl)
      rw [List.map_cons, hhead, ih]

theorem recordOf_eq_nil {l : List (κ × α)} (h : ∀ x ∈ l, x.1 ≠ k) : recordOf k l = [] :=
  List.filterMap_eq_nil_iff.mpr fun x hx => if_neg (h x hx)

end Records

/-! ## Loops over a stream of answers -/

section Answers

variable {α ρ : Type*} {f g : List α → Except φ ρ} {answers : Stream' α}

/-- Enough answers make `f` return. -/
def Ends (f : List α → Except φ ρ) (answers : Stream' α) : Prop :=
  ∃ n r, f (answers.take n) = .ok r

theorem ends_of_head {r : ρ} (h : ∀ as, f (answers.head :: as) = .ok r) : Ends f answers :=
  ⟨1, r, h []⟩

theorem ends_iff_tail (hnil : ∀ r, f [] ≠ .ok r)
    (h : ∀ as, f (answers.head :: as) = g as) : Ends f answers ↔ Ends g answers.tail := by
  constructor
  · rintro ⟨n, r, hr⟩
    cases n with
    | zero => exact absurd hr (hnil r)
    | succ n =>
        rw [Stream'.take_succ, h] at hr
        exact ⟨n, r, hr⟩
  · rintro ⟨n, r, hr⟩
    refine ⟨n + 1, r, ?_⟩
    rw [Stream'.take_succ, h]
    exact hr

end Answers

end Runs
