import Prifhete.State.Run

/-! # Rejected calls

    A call that returns a status with `ok = false` has left the model as it
    was, down to the last field, and shows the caller the current root. Such
    calls can therefore be deleted from a run without a trace.
-/

namespace Prifhete

namespace PlaintextModel

/-- Only the idle transition rejects, and it changes nothing. -/
theorem Transition.rejected {m m' : PlaintextModel} {call : Call} {reply : Reply}
    {trail : List PlaintextModel} (hstep : Transition m call reply trail m')
    (hreject : reply.rejected = true) :
    m' = m ∧ ∀ root, reply.root? = some root → root = m.current_root_ := by
  cases hstep with
  | idle _ _ hroot => exact ⟨rfl, hroot⟩
  | registered _ _ _ hok =>
    rw [rejected_of_accepted (accepted_registration hok)] at hreject
    contradiction
  | minted _ hok =>
    rw [rejected_of_accepted (accepted_mint hok)] at hreject
    contradiction
  | transferred _ hok =>
    rw [rejected_of_accepted (accepted_transfer hok)] at hreject
    contradiction
  | advanced _ hreply =>
    rw [hreply] at hreject
    contradiction
  | _ => contradiction

/-- **Rejected calls are atomic and can be erased.** In every state a rejected
    call leaves all fields as they were and returns no root but the current
    one; and a run without its rejected calls has the same events otherwise,
    results included, and ends in the same state. -/
theorem rejected_calls_erasable :
    (∀ (m : PlaintextModel) (call : Call), (m.exec call).1.rejected = true →
      (m.exec call).2 = m ∧
      ∀ root, (m.exec call).1.root? = some root → root = m.current_root_reference) ∧
    (∀ calls : List Call,
      let kept := (machine.events calls).filter fun e => !e.reply.rejected
      machine.events (kept.map (·.call)) = kept ∧
        machine.final (kept.map (·.call)) = machine.final calls) := by
  have hatomic : ∀ (m : PlaintextModel) (call : Call), (m.exec call).1.rejected = true →
      (m.exec call).2 = m ∧
      ∀ root, (m.exec call).1.root? = some root → root = m.current_root_ :=
    fun m call hreject => (m.exec_transition call).rejected hreject
  refine ⟨hatomic, ?_⟩
  intro calls
  apply machine.events_erase fun e => e.reply.rejected
  intro m call hreject
  exact (hatomic m call hreject).1

end PlaintextModel

end Prifhete
