import Mathlib.Control.Lawful
import Mathlib.Data.List.Forall2
import Mathlib.Data.List.Zip

/-! # Computations that check assertions

    A computation reads and writes a world of type `σ` (a source of
    randomness, say) and either returns or stops at an assertion that fails.
    `Returns c P` says that it returns from every world, with a result of
    which `P` holds: a postcondition in the sense of total correctness. Its
    rules follow the structure of the computation. The rules for loops over
    a list relate them to the same loop over another list that checks
    nothing.

    `Guarded checks c P` says in addition where it stops if it does not
    return: at the first of the assertions `checks` that fails.
-/

/-- A failed assertion, with the text of its condition. -/
structure AssertionFailure where
  expression : String
  deriving DecidableEq, Repr

abbrev Checked (σ α : Type) := StateT σ (Except AssertionFailure) α

namespace Checked

variable {σ α β γ δ : Type}

/-- Go on if the condition holds, and stop otherwise. -/
def assert (condition : Bool) (expression : String) : Checked σ Unit :=
  if condition then Pure.pure () else throw { expression := expression }

/-- The computation returns, and `P` holds of its result. -/
def Returns (c : Checked σ α) (P : α → Prop) : Prop :=
  ∀ s, ∃ a s', c.run s = .ok (a, s') ∧ P a

/-! ### Rules -/

theorem Returns.pure {P : α → Prop} {a : α} (h : P a) :
    Returns (Pure.pure a : Checked σ α) P :=
  fun s => ⟨a, s, rfl, h⟩

theorem Returns.mono {P Q : α → Prop} {c : Checked σ α} (h : Returns c P)
    (himp : ∀ a, P a → Q a) : Returns c Q := by
  intro s
  obtain ⟨a, s', hrun, ha⟩ := h s
  exact ⟨a, s', hrun, himp a ha⟩

/-- A computation that returns is followed by the rest. -/
theorem Returns.bind {P : α → Prop} {Q : β → Prop} {c : Checked σ α}
    {rest : α → Checked σ β} (h : Returns c P) (hrest : ∀ a, P a → Returns (rest a) Q) :
    Returns (c >>= rest) Q := by
  intro s
  obtain ⟨a, s', hrun, ha⟩ := h s
  obtain ⟨b, s'', hrun', hb⟩ := hrest a ha s'
  refine ⟨b, s'', ?_, hb⟩
  rw [StateT.run_bind, hrun]
  exact hrun'

/-- What holds of every result holds of the one a run returns. -/
theorem Returns.of_run {P : α → Prop} {c : Checked σ α} (h : Returns c P) {s s' : σ} {a : α}
    (hrun : c.run s = .ok (a, s')) : P a := by
  obtain ⟨b, t, hrun', hb⟩ := h s
  rw [hrun] at hrun'
  cases hrun'
  exact hb

/-- A result comes from a run. -/
theorem Returns.run {P : α → Prop} {c : Checked σ α} (h : Returns c P) :
    Returns c fun a => ∃ s s', c.run s = .ok (a, s') := by
  intro s
  obtain ⟨a, s', hrun, _⟩ := h s
  exact ⟨a, s', hrun, s, s', hrun⟩

/-- An assertion whose condition holds is passed. -/
theorem assert_bind {condition : Bool} {expression : String} {rest : Unit → Checked σ β}
    (h : condition = true) : (assert condition expression >>= rest) = rest () := by
  rw [h]
  rfl

/-! ### Loops -/

/-- A loop of assertions whose conditions all hold is passed. -/
theorem forM_assert_bind {condition : α → Bool} {expression : String}
    {rest : PUnit → Checked σ β} {l : List α} (h : ∀ a ∈ l, condition a = true) :
    ((forM l fun a => assert (condition a) expression) >>= rest) = rest () := by
  induction l with
  | nil => rfl
  | cons a l ih =>
    have hhead : condition a = true := h a List.mem_cons_self
    have htail : ∀ b ∈ l, condition b = true := fun b hb => h b (List.mem_cons_of_mem _ hb)
    rw [List.forM_cons, bind_assoc, assert_bind hhead]
    exact ih htail

/-- A loop that builds a list: what relates the elements it reads relates
    those it appends. -/
theorem Returns.mapM {R : α → γ → Prop} {S : β → δ → Prop} {f : α → Checked σ β}
    {g : γ → δ} (hstep : ∀ a c, R a c → Returns (f a) fun b => S b (g c)) {l : List α}
    {l' : List γ} (hl : List.Forall₂ R l l') :
    Returns (l.mapM f) fun bs => List.Forall₂ S bs (l'.map g) := by
  induction hl with
  | nil => exact Returns.pure List.Forall₂.nil
  | @cons a c l l' hac _ ih =>
    rw [List.mapM_cons]
    apply (hstep a c hac).bind
    intro b hb
    apply ih.bind
    intro bs hbs
    exact Returns.pure (List.Forall₂.cons hb hbs)

/-- The pairs that a loop over two lists at once reads. -/
theorem forall₂_zip {R : α → γ → Prop} {S : β → δ → Prop} {l : List α} {l' : List γ}
    {m : List β} {m' : List δ} (hl : List.Forall₂ R l l') (hm : List.Forall₂ S m m') :
    List.Forall₂ (fun p q => R p.1 q.1 ∧ S p.2 q.2) (l.zip m) (l'.zip m') := by
  induction hl generalizing m m' with
  | nil => exact List.Forall₂.nil
  | cons hac _ ih => cases hm with
    | nil => exact List.Forall₂.nil
    | cons hbd htail => exact List.Forall₂.cons ⟨hac, hbd⟩ (ih htail)

/-- A loop with an accumulator: what relates the accumulators before it
    relates them after it. -/
theorem Returns.foldlM {R : α → γ → Prop} {S : β → δ → Prop}
    {f : β → α → Checked σ β} {g : δ → γ → δ}
    (hstep : ∀ b d a c, S b d → R a c → Returns (f b a) fun b' => S b' (g d c))
    {l : List α} {l' : List γ} (hl : List.Forall₂ R l l') {b : β} {d : δ} (hinit : S b d) :
    Returns (l.foldlM f b) fun b' => S b' (l'.foldl g d) := by
  induction hl generalizing b d with
  | nil => exact Returns.pure hinit
  | @cons a c l l' hac _ ih =>
    rw [List.foldlM_cons]
    apply (hstep b d a c hinit hac).bind
    intro b' hb'
    exact ih hb'

/-! ### Where a computation stops -/

/-- The first of a list of assertions that fails. -/
def firstFailed (checks : List (Bool × String)) : Option AssertionFailure :=
  (checks.find? (!·.1)).map fun check => { expression := check.2 }

/-- All of the assertions hold. -/
def Pass (checks : List (Bool × String)) : Prop := ∀ check ∈ checks, check.1 = true

@[simp] theorem pass_nil : Pass [] := by simp [Pass]

@[simp] theorem pass_cons {check : Bool × String} {checks : List (Bool × String)} :
    Pass (check :: checks) ↔ check.1 = true ∧ Pass checks := List.forall_mem_cons

@[simp] theorem pass_append {checks checks' : List (Bool × String)} :
    Pass (checks ++ checks') ↔ Pass checks ∧ Pass checks' := List.forall_mem_append

theorem firstFailed_eq_none {checks : List (Bool × String)} :
    firstFailed checks = none ↔ Pass checks := by
  simp [firstFailed, Pass]

/-- What follows counts only if what comes before holds. -/
theorem firstFailed_append (checks checks' : List (Bool × String)) :
    firstFailed (checks ++ checks') = (firstFailed checks).or (firstFailed checks') := by
  unfold firstFailed
  rw [List.find?_append]
  cases checks.find? (!·.1) with
  | none => rfl
  | some check => rfl

/-- From every world the computation stops at the first of the assertions
    that fails, and if none does it returns a result of which `P` holds. -/
def Guarded (checks : List (Bool × String)) (c : Checked σ α) (P : α → Prop) : Prop :=
  match firstFailed checks with
  | none => Returns c P
  | some failure => ∀ s, c.run s = .error failure

theorem Guarded.returns {P : α → Prop} {checks : List (Bool × String)} {c : Checked σ α}
    (h : Guarded checks c P) (hpass : Pass checks) : Returns c P := by
  unfold Guarded at h
  rw [firstFailed_eq_none.mpr hpass] at h
  exact h

theorem Guarded.of_returns {P : α → Prop} {c : Checked σ α} (h : Returns c P) :
    Guarded [] c P := h

/-- Only the first assertion that fails matters. -/
theorem Guarded.congr {P : α → Prop} {checks checks' : List (Bool × String)} {c : Checked σ α}
    (h : Guarded checks c P) (heq : firstFailed checks = firstFailed checks') :
    Guarded checks' c P := by
  unfold Guarded at h ⊢
  rw [← heq]
  exact h

/-- Assertions that hold can be left out in front. -/
theorem Guarded.skip {P : α → Prop} {checks checks' : List (Bool × String)} {c : Checked σ α}
    (h : Guarded (checks ++ checks') c P) (hpass : Pass checks) : Guarded checks' c P := by
  apply h.congr
  rw [firstFailed_append, firstFailed_eq_none.mpr hpass, Option.none_or]

/-- One computation after the other: the second one is reached only if the
    assertions of the first hold. -/
theorem Guarded.bind {P : α → Prop} {Q : β → Prop} {checks checks' : List (Bool × String)}
    {c : Checked σ α} {rest : α → Checked σ β} (h : Guarded checks c P)
    (hrest : Pass checks → ∀ a, P a → Guarded checks' (rest a) Q) :
    Guarded (checks ++ checks') (c >>= rest) Q := by
  unfold Guarded at h ⊢
  rw [firstFailed_append]
  cases hfailed : firstFailed checks with
  | some failure =>
    rw [hfailed] at h
    intro s
    rw [StateT.run_bind, h s]
    rfl
  | none =>
    rw [hfailed] at h
    have hnext := hrest (firstFailed_eq_none.mp hfailed)
    unfold Guarded at hnext
    rw [Option.none_or]
    cases hfailed' : firstFailed checks' with
    | none =>
      rw [hfailed'] at hnext
      exact h.bind hnext
    | some failure =>
      rw [hfailed'] at hnext
      intro s
      obtain ⟨a, s', hrun, ha⟩ := h s
      rw [StateT.run_bind, hrun]
      exact hnext a ha s'

/-- A computation that stops hides what would follow it. -/
theorem Guarded.bind_of_stops {P : α → Prop} {Q : β → Prop}
    {checks checks' : List (Bool × String)} {c : Checked σ α} {rest : α → Checked σ β}
    (h : Guarded checks c P) (hstops : ¬ Pass checks) :
    Guarded (checks ++ checks') (c >>= rest) Q :=
  h.bind fun hpass => False.elim (hstops hpass)

theorem Guarded.assert (condition : Bool) (expression : String) :
    Guarded [(condition, expression)] (Checked.assert condition expression : Checked σ Unit)
      fun _ => True := by
  cases condition with
  | true => exact Returns.pure trivial
  | false => exact fun s => rfl

/-- A loop of assertions. -/
theorem Guarded.forM {checks : α → List (Bool × String)} {f : α → Checked σ PUnit}
    (hstep : ∀ a, Guarded (checks a) (f a) fun _ => True) (l : List α) :
    Guarded (l.flatMap checks) (l.forM f) fun _ => True := by
  induction l with
  | nil => exact Returns.pure trivial
  | cons a l ih => exact (hstep a).bind fun _ _ _ => ih

/-- A loop that builds a list. -/
theorem Guarded.mapM {P : β → Prop} {checks : α → List (Bool × String)}
    {f : α → Checked σ β} {l : List α} (hstep : ∀ a ∈ l, Guarded (checks a) (f a) P) :
    Guarded (l.flatMap checks) (l.mapM f) fun bs => ∀ b ∈ bs, P b := by
  induction l with
  | nil => exact Returns.pure (by simp)
  | cons a l ih =>
    have htail := ih fun a' ha' => hstep a' (List.mem_cons_of_mem a ha')
    rw [List.mapM_cons]
    apply (hstep a List.mem_cons_self).bind
    intro _ b hb
    have hcons : ∀ bs, (∀ b ∈ bs, P b) →
        Guarded [] (Pure.pure (b :: bs) : Checked σ (List β)) fun bs => ∀ b ∈ bs, P b :=
      fun _ hbs => Returns.pure (List.forall_mem_cons.mpr ⟨hb, hbs⟩)
    have hrest := htail.bind fun _ => hcons
    rw [List.append_nil] at hrest
    exact hrest

/-- A loop with an accumulator, which keeps `P`. -/
theorem Guarded.foldlM {P : β → Prop} {checks : α → List (Bool × String)}
    {f : β → α → Checked σ β} {l : List α}
    (hstep : ∀ b, P b → ∀ a ∈ l, Guarded (checks a) (f b a) P) {b : β} (hinit : P b) :
    Guarded (l.flatMap checks) (l.foldlM f b) P := by
  induction l generalizing b with
  | nil => exact Returns.pure hinit
  | cons a l ih =>
    rw [List.foldlM_cons]
    apply (hstep b hinit a List.mem_cons_self).bind
    intro _ b' hb'
    exact ih (fun b hb a' ha' => hstep b hb a' (List.mem_cons_of_mem a ha')) hb'

end Checked
