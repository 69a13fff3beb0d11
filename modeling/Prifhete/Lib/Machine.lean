import Mathlib.Data.List.Basic
import Mathlib.Data.List.Chain
import Mathlib.Data.List.DropRight

/-! # Deterministic machines and the histories of their runs

    A machine answers each call with a reply and a new state. One call may
    pass through several states on its way (a loop, say), and its `trail`
    lists them. This module defines, for the run of a list of calls,

    * the state it ends in (`final`), the events it consists of (`events`)
      and all states it passes through (`points`);
    * the part of a history since an observation last changed
      (`sinceChange`);

    and gives the induction rules for them, each with a step obligation for
    one call, possibly under a condition that the calls of the run meet
    (`Along`), and the erasure rule for calls that leave no trace.
-/

universe u v w x

/-- A deterministic machine. -/
structure Machine (State : Type u) (Call : Type v) (Reply : Type w) where
  /-- The state a run starts in. -/
  init : State
  /-- What one call answers, and the state it leaves. -/
  exec : State → Call → Reply × State
  /-- The states one call passes through, the last being the one it leaves. -/
  trail : State → Call → List State
  trail_last : ∀ s c, (s :: trail s c).getLast (List.cons_ne_nil _ _) = (exec s c).2

namespace Machine

/-- One call of a run, with the states around it. -/
structure Event (State : Type u) (Call : Type v) (Reply : Type w) where
  before : State
  call : Call
  reply : Reply
  after : State

variable {State : Type u} {Call : Type v} {Reply : Type w} (M : Machine State Call Reply)

/-- The event that call `c` is in state `s`. -/
def event (s : State) (c : Call) : Event State Call Reply :=
  { before := s, call := c, reply := (M.exec s c).1, after := (M.exec s c).2 }

@[simp] theorem event_before (s : State) (c : Call) : (M.event s c).before = s := rfl
@[simp] theorem event_call (s : State) (c : Call) : (M.event s c).call = c := rfl
@[simp] theorem event_reply (s : State) (c : Call) : (M.event s c).reply = (M.exec s c).1 := rfl
@[simp] theorem event_after (s : State) (c : Call) : (M.event s c).after = (M.exec s c).2 := rfl

/-- The state a list of calls ends in. -/
def final (calls : List Call) : State :=
  calls.foldl (fun s c => (M.exec s c).2) M.init

/-- The events of a list of calls that starts in state `s`. -/
def eventsFrom : State → List Call → List (Event State Call Reply)
  | _, [] => []
  | s, c :: calls => M.event s c :: eventsFrom (M.exec s c).2 calls

/-- The events of a run, oldest first. -/
def events (calls : List Call) : List (Event State Call Reply) :=
  M.eventsFrom M.init calls

/-- The states a run passes through, oldest first. -/
def points (calls : List Call) : List State :=
  M.init :: (M.events calls).flatMap fun e => M.trail e.before e.call

/-! ### Runs that grow at the end -/

@[simp] theorem final_nil : M.final [] = M.init := rfl

@[simp] theorem final_concat (calls : List Call) (c : Call) :
    M.final (calls ++ [c]) = (M.exec (M.final calls) c).2 := by
  simp [final]

@[simp] theorem events_nil : M.events [] = [] := rfl

private theorem eventsFrom_concat (calls : List Call) (c : Call) (s : State) :
    M.eventsFrom s (calls ++ [c]) =
      M.eventsFrom s calls ++ [M.event (calls.foldl (fun s c => (M.exec s c).2) s) c] := by
  induction calls generalizing s with
  | nil => rfl
  | cons d calls ih => simp [eventsFrom, ih]

@[simp] theorem events_concat (calls : List Call) (c : Call) :
    M.events (calls ++ [c]) = M.events calls ++ [M.event (M.final calls) c] :=
  M.eventsFrom_concat calls c M.init

@[simp] theorem points_nil : M.points [] = [M.init] := rfl

@[simp] theorem points_concat (calls : List Call) (c : Call) :
    M.points (calls ++ [c]) = M.points calls ++ M.trail (M.final calls) c := by
  simp [points]

/-- A run ends in the last state it passes through. -/
theorem getLast?_points (calls : List Call) :
    (M.points calls).getLast? = some (M.final calls) := by
  induction calls using List.reverseRecOn with
  | nil => rfl
  | append_singleton calls c ih =>
    -- an empty trail leaves the last state in place
    have hlast := M.trail_last (M.final calls) c
    rw [points_concat, final_concat, List.getLast?_append, ih, ← hlast]
    simp [← List.getLast?_eq_some_getLast, List.getLast?_cons]

theorem final_mem_points (calls : List Call) : M.final calls ∈ M.points calls :=
  List.mem_of_getLast? (M.getLast?_points calls)

/-- The points of a run come first in every continuation of it. -/
theorem points_prefix (calls later : List Call) :
    M.points calls <+: M.points (calls ++ later) := by
  induction later using List.reverseRecOn with
  | nil => simp
  | append_singleton later c ih =>
    rw [← List.append_assoc, points_concat]
    exact ih.trans (List.prefix_append _ _)

/-- The events of a run are those of its calls, each in the state the calls
    before it end in. -/
theorem mem_events {calls : List Call} {e : Event State Call Reply} :
    e ∈ M.events calls ↔
      ∃ pre c post, calls = pre ++ c :: post ∧ e = M.event (M.final pre) c := by
  induction calls using List.reverseRecOn with
  | nil => simp
  | append_singleton calls d ih =>
    rw [events_concat, List.mem_append, ih, List.mem_singleton]
    constructor
    · intro h
      rcases h with ⟨pre, c, post, hcalls, he⟩ | he
      · exact ⟨pre, c, post ++ [d], by simp [hcalls], he⟩
      · exact ⟨calls, d, [], rfl, he⟩
    · intro ⟨pre, c, post, hcalls, he⟩
      -- the call is the last one, or it lies before the last one
      rcases List.eq_nil_or_concat post with hpost | ⟨front, d', hpost⟩
      · rw [hpost] at hcalls
        obtain ⟨hpre, hd⟩ := List.append_singleton_inj.mp hcalls
        rw [he, hpre, hd]
        exact Or.inr rfl
      · rw [hpost, List.concat_eq_append, ← List.cons_append, ← List.append_assoc] at hcalls
        obtain ⟨hfront, _⟩ := List.append_singleton_inj.mp hcalls
        exact Or.inl ⟨pre, c, front, hfront, he⟩

/-! ### Conditions on the calls of a run -/

/-- A condition that every call of a run meets in the state it is made in,
    with the history behind it. -/
def Along (Good : List (Event State Call Reply) → State → Call → Prop)
    (calls : List Call) : Prop :=
  ∀ pre c post, calls = pre ++ c :: post → Good (M.events pre) (M.final pre) c

section Along

variable {Good : List (Event State Call Reply) → State → Call → Prop} {calls : List Call}

theorem Along.of_append {later : List Call} (h : M.Along Good (calls ++ later)) :
    M.Along Good calls := by
  intro pre c post hcalls
  apply h pre c (post ++ later)
  rw [hcalls, List.append_assoc, List.cons_append]

theorem along_concat {c : Call} :
    M.Along Good (calls ++ [c]) ↔
      M.Along Good calls ∧ Good (M.events calls) (M.final calls) c := by
  constructor
  · intro h
    exact ⟨h.of_append, h calls c [] rfl⟩
  · intro ⟨hcalls, hlast⟩ pre d post hsplit
    -- again the call is the last one, or it lies before the last one
    rcases List.eq_nil_or_concat post with hpost | ⟨front, d', hpost⟩
    · rw [hpost] at hsplit
      obtain ⟨hpre, hd⟩ := List.append_singleton_inj.mp hsplit
      rw [← hpre, ← hd]
      exact hlast
    · rw [hpost, List.concat_eq_append, ← List.cons_append, ← List.append_assoc] at hsplit
      obtain ⟨hfront, _⟩ := List.append_singleton_inj.mp hsplit
      exact hcalls pre d front hfront

theorem along_of_forall {P : Call → Prop} (h : ∀ c ∈ calls, P c)
    (hgood : ∀ pre c, (∀ d ∈ pre, P d) → P c → Good (M.events pre) (M.final pre) c) :
    M.Along Good calls := by
  intro pre c post hcalls
  refine hgood pre c ?_ (h c (by simp [hcalls]))
  intro d hd
  exact h d (by simp [hcalls, hd])

end Along

/-! ### Induction rules -/

/-- An invariant of the states between calls. -/
theorem final_invariant (Inv : State → Prop) (hinit : Inv M.init)
    (hstep : ∀ s c, Inv s → Inv (M.exec s c).2) (calls : List Call) : Inv (M.final calls) := by
  induction calls using List.reverseRecOn with
  | nil => exact hinit
  | append_singleton calls c ih => rw [final_concat]; exact hstep _ c ih

/-- A property of the history and the state, kept by every call that meets a
    condition. -/
theorem along_invariant (Inv : List (Event State Call Reply) → State → Prop)
    {Good : List (Event State Call Reply) → State → Call → Prop} (hinit : Inv [] M.init)
    (hstep : ∀ h s c, Good h s c → Inv h s → Inv (h ++ [M.event s c]) (M.exec s c).2)
    {calls : List Call} (halong : M.Along Good calls) : Inv (M.events calls) (M.final calls) := by
  induction calls using List.reverseRecOn with
  | nil => exact hinit
  | append_singleton calls c ih =>
    obtain ⟨hcalls, hlast⟩ := M.along_concat.mp halong
    rw [events_concat, final_concat]
    exact hstep _ _ c hlast (ih hcalls)

/-- A property of the history and the state that every call keeps. -/
theorem history_invariant (Inv : List (Event State Call Reply) → State → Prop)
    (hinit : Inv [] M.init)
    (hstep : ∀ h s c, Inv h s → Inv (h ++ [M.event s c]) (M.exec s c).2) (calls : List Call) :
    Inv (M.events calls) (M.final calls) :=
  M.along_invariant Inv hinit (fun h s c (_ : True) => hstep h s c) fun _ _ _ _ => trivial

/-- A relation between consecutive states that the trails of the calls follow. -/
theorem points_chain {R : State → State → Prop} {calls : List Call}
    (htrail : M.Along (fun _ s c => (s :: M.trail s c).IsChain R) calls) :
    (M.points calls).IsChain R := by
  induction calls using List.reverseRecOn with
  | nil => exact List.isChain_singleton _
  | append_singleton calls c ih =>
    obtain ⟨hcalls, hlast⟩ := M.along_concat.mp htrail
    have hinit := ih hcalls
    obtain ⟨ps, hps⟩ := List.getLast?_eq_some_iff.mp (M.getLast?_points calls)
    rw [points_concat]
    rw [hps] at hinit ⊢
    -- the trail continues where the run has got to
    rw [List.append_assoc, List.singleton_append]
    exact List.isChain_split.mpr ⟨hinit, hlast⟩

/-- A reflexive and transitive relation that the calls follow from some point
    of a run on. -/
theorem final_append_of_along {R : State → State → Prop} (hrefl : ∀ s, R s s)
    (htrans : ∀ s t u, R s t → R t u → R s u) {pre later : List Call}
    (hstep : M.Along (fun _ s c => R s (M.exec s c).2) (pre ++ later)) :
    R (M.final pre) (M.final (pre ++ later)) := by
  induction later using List.reverseRecOn with
  | nil => rw [List.append_nil]; exact hrefl _
  | append_singleton later c ih =>
    rw [← List.append_assoc] at hstep ⊢
    obtain ⟨hprev, hlast⟩ := M.along_concat.mp hstep
    rw [final_concat]
    exact htrans _ _ _ (ih hprev) hlast

/-! ### Erasing calls that leave the state as it was -/

/-- Deleting from a run calls that change nothing leaves the other events,
    replies and all, and the final state as they were. -/
theorem events_erase (idle : Event State Call Reply → Bool)
    (hidle : ∀ s c, idle (M.event s c) = true → (M.exec s c).2 = s) (calls : List Call) :
    let kept := (M.events calls).filter fun e => !idle e
    M.events (kept.map (·.call)) = kept ∧ M.final (kept.map (·.call)) = M.final calls := by
  induction calls using List.reverseRecOn with
  | nil => exact ⟨rfl, rfl⟩
  | append_singleton calls c ih =>
    obtain ⟨hevents, hfinal⟩ := ih
    simp only [events_concat, List.filter_append, List.map_append, final_concat]
      at hevents hfinal ⊢
    cases hc : idle (M.event (M.final calls) c) with
    | true =>
      -- the call goes, and the state is the one before it
      simp [hc, hidle _ _ hc, hevents, hfinal]
    | false =>
      -- the call stays, and meets the same state as in the full run
      simp [hc, hevents, hfinal]

/-! ### Since an observation last changed -/

variable {α : Type x} [DecidableEq α]

/-- The events since the last one that changed `obs`. -/
def sinceChange (obs : State → α) (h : List (Event State Call Reply)) :
    List (Event State Call Reply) :=
  h.rtakeWhile fun e => decide (obs e.before = obs e.after)

@[simp] theorem sinceChange_nil (obs : State → α) :
    sinceChange obs ([] : List (Event State Call Reply)) = [] := by
  simp [sinceChange]

theorem sinceChange_concat (obs : State → α) (h : List (Event State Call Reply))
    (e : Event State Call Reply) :
    sinceChange obs (h ++ [e]) =
      if obs e.before = obs e.after then sinceChange obs h ++ [e] else [] := by
  simp [sinceChange, List.rtakeWhile_concat]

end Machine
