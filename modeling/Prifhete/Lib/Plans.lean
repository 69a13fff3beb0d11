import Prifhete.Lib.Simulation

/-! # Plans

    What a client of a machine can bring about by calls of its own choice.
    This module defines when a state attains a property (`Attains`), and
    gives the rules by which plans are put together: one call, two plans one
    after the other, and a plan with a round for each number below a bound.
-/

universe u v w x y

namespace Machine

variable {State : Type u} {Call : Type v} {Reply : Type w} (M : Machine State Call Reply)

/-- Some calls lead from the state to one with the property. -/
def Attains (s : State) (P : State → Prop) : Prop :=
  ∃ calls, P ((M.startingAt s).final calls)

theorem attains_final {calls : List Call} {P : State → Prop} :
    M.Attains (M.final calls) P ↔ ∃ later, P (M.final (calls ++ later)) := by
  constructor
  · intro ⟨later, hlater⟩
    refine ⟨later, ?_⟩
    rw [final_append]
    exact hlater
  · intro ⟨later, hlater⟩
    refine ⟨later, ?_⟩
    rw [final_append] at hlater
    exact hlater

namespace Attains

variable {M} {s : State} {P Q : State → Prop}

/-- The plan without a call. -/
theorem done (h : P s) : M.Attains s P := ⟨[], h⟩

theorem mono (h : M.Attains s P) (hle : ∀ t, P t → Q t) : M.Attains s Q := by
  obtain ⟨calls, hcalls⟩ := h
  exact ⟨calls, hle _ hcalls⟩

/-- One plan, and another one from wherever it leads. -/
theorem andThen (h : M.Attains s P) (hnext : ∀ t, P t → M.Attains t Q) : M.Attains s Q := by
  obtain ⟨calls, hcalls⟩ := h
  obtain ⟨later, hlater⟩ := hnext _ hcalls
  refine ⟨calls ++ later, ?_⟩
  rw [final_append]
  exact hlater

/-- The plan of one call. -/
theorem call (c : Call) (h : P (M.exec s c).2) : M.Attains s P := ⟨[c], h⟩

/-- A round for each number from `k` to `n`. -/
theorem rounds {P : ℕ → State → Prop} {k n : ℕ} (hkn : k ≤ n) (hstart : P k s)
    (hround : ∀ i t, k ≤ i → i < n → P i t → M.Attains t (P (i + 1))) :
    M.Attains s (P n) := by
  induction n, hkn using Nat.le_induction with
  | base => exact done hstart
  | succ n hn ih =>
    apply (ih fun i t hi hlt => hround i t hi (Nat.lt_succ_of_lt hlt)).andThen
    intro t ht
    exact hround n t hn (Nat.lt_succ_self n) ht

/-! ### Plans for another machine -/

variable {State' : Type x} {Reply' : Type y} {N : Machine State' Call Reply'}
  {Rel : State → State' → Prop}

/-- A machine whose every step is followed attains what the other one does. -/
theorem of_steps (hstep : ∀ {s s'} c, Rel s s' → Rel (M.exec s c).2 (N.exec s' c).2)
    {s' : State'} (hrel : Rel s s') {P' : State' → Prop} (h : N.Attains s' P') :
    M.Attains s fun t => ∃ t', Rel t t' ∧ P' t' := by
  obtain ⟨calls, hcalls⟩ := h
  refine ⟨calls, _, ?_, hcalls⟩
  clear hcalls
  induction calls generalizing s s' with
  | nil => exact hrel
  | cons c calls ih => exact ih (hstep c hrel)

end Attains

end Machine
