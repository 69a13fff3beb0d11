import Prifhete.Lib.Machine
import Mathlib.Data.List.Forall2

/-! # Simulations between machines

    A machine follows another one when it can answer a translation of every
    call of the other so that a relation between the two states is kept. A
    call without a translation is skipped, and only the other machine takes
    it. This module defines

    * simulations in this sense (`Follows`), and what they say about whole
      runs: the final states are related (`Follows.final`), and the
      translated events correspond one to one (`Follows.events`);
    * runs that start where another run has ended (`startingAt`).
-/

universe u v w x y z

namespace Machine

variable {State : Type u} {Call : Type v} {Reply : Type w}
variable {State' : Type x} {Call' : Type y} {Reply' : Type z}

/-! ### Simulations -/

/-- `N` follows `M` as long as the calls are permitted. `Rel` relates the
    states of the two, and `Like` the replies to a call and to its
    translation. -/
structure Follows (M : Machine State Call Reply) (N : Machine State' Call' Reply')
    (Permitted : State → Call → Prop) (translate : Call → Option Call')
    (Rel : State → State' → Prop) (Like : Call → Reply → Reply' → Prop) : Prop where
  init : Rel M.init N.init
  step : ∀ {s s' c c'}, Permitted s c → translate c = some c' → Rel s s' →
    Like c (M.exec s c).1 (N.exec s' c').1 ∧ Rel (M.exec s c).2 (N.exec s' c').2
  skip : ∀ {s s' c}, Permitted s c → translate c = none → Rel s s' → Rel (M.exec s c).2 s'

/-- An event and the event that follows it. -/
structure Corresponds (translate : Call → Option Call') (Rel : State → State' → Prop)
    (Like : Call → Reply → Reply' → Prop) (e : Event State Call Reply)
    (e' : Event State' Call' Reply') : Prop where
  call : translate e.call = some e'.call
  reply : Like e.call e.reply e'.reply
  before : Rel e.before e'.before
  after : Rel e.after e'.after

namespace Follows

variable {M : Machine State Call Reply} {N : Machine State' Call' Reply'}
  {Permitted : State → Call → Prop} {translate : Call → Option Call'}
  {Rel : State → State' → Prop} {Like : Call → Reply → Reply' → Prop}

/-- The two runs end in related states. -/
theorem final (h : Follows M N Permitted translate Rel Like) {calls : List Call}
    (hcalls : M.Along (fun _ s c => Permitted s c) calls) :
    Rel (M.final calls) (N.final (calls.filterMap translate)) := by
  induction calls using List.reverseRecOn with
  | nil => exact h.init
  | append_singleton calls c ih =>
    obtain ⟨hbefore, hc⟩ := M.along_concat.mp hcalls
    have hprev := ih hbefore
    rw [final_concat, List.filterMap_append]
    cases htranslate : translate c with
    | none =>
      have hnil : [c].filterMap translate = [] := by simp [htranslate]
      rw [hnil, List.append_nil]
      exact h.skip hc htranslate hprev
    | some c' =>
      have hone : [c].filterMap translate = [c'] := by simp [htranslate]
      rw [hone, final_concat]
      exact (h.step hc htranslate hprev).2

/-- The translated events of the one run correspond to the events of the
    other, in order. -/
theorem events (h : Follows M N Permitted translate Rel Like) {calls : List Call}
    (hcalls : M.Along (fun _ s c => Permitted s c) calls) :
    List.Forall₂ (Corresponds translate Rel Like)
      ((M.events calls).filter fun e => (translate e.call).isSome)
      (N.events (calls.filterMap translate)) := by
  induction calls using List.reverseRecOn with
  | nil => exact List.Forall₂.nil
  | append_singleton calls c ih =>
    obtain ⟨hbefore, hc⟩ := M.along_concat.mp hcalls
    have hprev := ih hbefore
    have hrel := h.final hbefore
    rw [events_concat, List.filter_append, List.filterMap_append]
    cases htranslate : translate c with
    | none =>
      -- the other machine has nothing to do
      have hskipped : [M.event (M.final calls) c].filter
          (fun e => (translate e.call).isSome) = [] := by simp [htranslate]
      have hnil : [c].filterMap translate = [] := by simp [htranslate]
      rw [hskipped, hnil, List.append_nil, List.append_nil]
      exact hprev
    | some c' =>
      obtain ⟨hlike, hafter⟩ := h.step hc htranslate hrel
      have hkept : [M.event (M.final calls) c].filter
          (fun e => (translate e.call).isSome) = [M.event (M.final calls) c] := by
        simp [htranslate]
      have hone : [c].filterMap translate = [c'] := by simp [htranslate]
      rw [hkept, hone, events_concat]
      refine List.rel_append hprev (List.Forall₂.cons ?_ List.Forall₂.nil)
      exact ⟨htranslate, hlike, hrel, hafter⟩

/-- The replies of the two runs, where the calls do not matter. -/
theorem replies {LikeReply : Reply → Reply' → Prop}
    (h : Follows M N Permitted translate Rel fun _ => LikeReply) {calls : List Call}
    (hcalls : M.Along (fun _ s c => Permitted s c) calls) :
    List.Forall₂ LikeReply
      (((M.events calls).filter fun e => (translate e.call).isSome).map (·.reply))
      ((N.events (calls.filterMap translate)).map (·.reply)) := by
  rw [List.forall₂_map_left_iff, List.forall₂_map_right_iff]
  exact (h.events hcalls).imp fun _ _ hcorresponds => hcorresponds.reply

end Follows

/-! ### A translation of every call -/

section Total

variable {M : Machine State Call Reply} {N : Machine State' Call' Reply'}
  {Permitted : State → Call → Prop} {f : Call → Call'} {Rel : State → State' → Prop}
  {Like : Call → Reply → Reply' → Prop}

/-- A simulation that skips nothing. -/
theorem follows_of_total (hinit : Rel M.init N.init)
    (hstep : ∀ s s' c, Permitted s c → Rel s s' →
      Like c (M.exec s c).1 (N.exec s' (f c)).1 ∧ Rel (M.exec s c).2 (N.exec s' (f c)).2) :
    Follows M N Permitted (fun c => some (f c)) Rel Like where
  init := hinit
  step := by
    intro s s' c c' hc htranslate hrel
    cases htranslate
    exact hstep s s' c hc hrel
  skip := by
    intro s s' c hc htranslate
    contradiction

private theorem filterMap_some_eq_map (calls : List Call) :
    calls.filterMap (fun c => some (f c)) = calls.map f := congrFun List.filterMap_eq_map calls

theorem Follows.final_map (h : Follows M N Permitted (fun c => some (f c)) Rel Like)
    {calls : List Call} (hcalls : M.Along (fun _ s c => Permitted s c) calls) :
    Rel (M.final calls) (N.final (calls.map f)) := by
  have hfinal := h.final hcalls
  rwa [filterMap_some_eq_map] at hfinal

theorem Follows.replies_map {LikeReply : Reply → Reply' → Prop}
    (h : Follows M N Permitted (fun c => some (f c)) Rel fun _ => LikeReply) {calls : List Call}
    (hcalls : M.Along (fun _ s c => Permitted s c) calls) :
    List.Forall₂ LikeReply ((M.events calls).map (·.reply))
      ((N.events (calls.map f)).map (·.reply)) := by
  have hreplies := h.replies hcalls
  rw [filterMap_some_eq_map] at hreplies
  simpa using hreplies

end Total

/-- All calls are permitted. -/
theorem along_true (M : Machine State Call Reply) (calls : List Call) :
    M.Along (fun _ _ _ => True) calls := fun _ _ _ _ => trivial

/-! ### Starting where another run has ended -/

/-- The machine as it goes on from state `s`. -/
def startingAt (M : Machine State Call Reply) (s : State) : Machine State Call Reply :=
  { M with init := s }

variable (M : Machine State Call Reply)

@[simp] theorem startingAt_init (s : State) : (M.startingAt s).init = s := rfl

@[simp] theorem startingAt_exec (s t : State) (c : Call) :
    (M.startingAt s).exec t c = M.exec t c := rfl

theorem final_append (calls later : List Call) :
    M.final (calls ++ later) = (M.startingAt (M.final calls)).final later := by
  simp [final, List.foldl_append]

end Machine
