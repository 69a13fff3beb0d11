import Prifhete.State.Batches
import Prifhete.State.Conservation
import Prifhete.State.Replay

/-! # Requests that wait

    A client reads a root from a reply, prepares a transaction and submits
    it after calls of others. What can happen in between:

    * the root is good for its epoch and the next one, whatever else the
      others do, and again whenever the epoch comes back to these two;
    * a transaction that would have been accepted still is, unless one of
      the calls before it has spoilt it (`Spoils`): by moving the epoch away
      from the root, by spending its PRF output, or by leaving too little on
      the account it draws on.
-/

namespace Prifhete

open PlaintextModel AbstractLedger Sequences

namespace AbstractLedger

variable {l : AbstractLedger}

/-! ### Issued roots are kept -/

theorem advanceBy_issued (l : AbstractLedger) (n : Nat) :
    l.issued <+: (l.advanceBy n).issued := by
  induction n with
  | zero => exact List.prefix_rfl
  | succ n ih => exact ih.trans (List.prefix_append _ _)

/-- A call adds roots at the end. -/
theorem exec_issued (l : AbstractLedger) (call : Call) :
    l.issued <+: (l.exec call).2.issued := by
  have h := l.exec_outcome call
  generalize l.exec call = result at h ⊢
  cases h with
  | refused hrefused hroot => exact List.prefix_rfl
  | @registered request reply hpassed hroom haccepted hroot =>
    show l.issued <+: (l.openAccount _).issued ++ [l.epoch]
    rw [openAccount_issued]
    exact List.prefix_append _ _
  | replaced hid hknown => exact List.prefix_rfl
  | opened hid hfresh hroom => rw [openAccount_issued]
  | @minted t reply hpassed haccepted hroot =>
    show l.issued <+: (l.spend t.prf_output).issued ++ [l.epoch]
    rw [spend_issued]
    exact List.prefix_append _ _
  | @transferred t reply hpassed hcovered haccepted hroot =>
    show l.issued <+: (l.spend t.prf_output).issued ++ [l.epoch]
    rw [spend_issued]
    exact List.prefix_append _ _
  | stepped hmax => exact l.advanceBy_issued 1
  | advanced hcall hle hroot => exact l.advanceBy_issued _
  | wentBack hback => exact List.prefix_append _ _

/-- The root in a reply, if any, is the one that is current after the call. -/
theorem root_of_reply (l : AbstractLedger) (call : Call) :
    (l.exec call).1.root? = none ∨
      (l.exec call).1.root? = some (l.exec call).2.current_root := by
  have h := l.exec_outcome call
  generalize l.exec call = result at h ⊢
  cases h with
  | refused hrefused hroot => exact hroot
  | registered hpassed hroom haccepted hroot => exact Or.inr hroot
  | minted hpassed haccepted hroot => exact Or.inr hroot
  | transferred hpassed hcovered haccepted hroot => exact Or.inr hroot
  | advanced hcall hle hroot => exact Or.inl hroot
  | _ => exact Or.inl rfl

theorem current_root_mem (l : AbstractLedger) : l.current_root ∈ l.roots :=
  List.mem_of_getLast? (getLast?_rootsOf l.started)

theorem mem_roots_mono {l l' : AbstractLedger} (h : l.issued <+: l'.issued)
    {root : RootReference} (hroot : root ∈ l.roots) : root ∈ l'.roots := by
  obtain ⟨more, hmore⟩ := h
  unfold roots rootsOf at hroot ⊢
  rw [← hmore, List.mapIdx_append]
  exact List.mem_append_left _ hroot

theorem final_issued (calls later : List Call) :
    (machine.final calls).issued <+: (machine.final (calls ++ later)).issued := by
  apply machine.final_append_of_along (R := fun l l' => l.issued <+: l'.issued)
  · exact fun l => List.prefix_rfl
  · exact fun _ _ _ => List.IsPrefix.trans
  · exact fun _ _ _ _ => exec_issued _ _

end AbstractLedger

namespace PlaintextModel

/-- The epoch is the one of the root or the next one. -/
def InWindow (epoch : EpochNumber) (root : RootReference) : Prop :=
  root.epoch.toNat ≤ epoch.toNat ∧ epoch.toNat - root.epoch.toNat ≤ 1

/-- A root that a reply of a run carries, of an accepted call or not, is
    valid at the end of every continuation whose epoch is that of the root or
    the next one, and at the end of no other. -/
theorem carried_root_valid_iff (calls later : List Call) {e : Event}
    (he : e ∈ machine.events calls) {root : RootReference} (hroot : e.reply.root? = some root) :
    (machine.final (calls ++ later)).isValidRoot root = true ↔
      InWindow (machine.final (calls ++ later)).current_epoch_ root := by
  obtain ⟨pre, c, post, hcalls, hevent⟩ := machine.mem_events.mp he
  -- the ledger after the call knows the root, and every later one does
  obtain ⟨hreply, hafter⟩ := (run_represents pre).exec c
  rw [hevent, machine.event_reply, machine_exec, hreply] at hroot
  have hcurrent : root = ((AbstractLedger.machine.final pre).exec c).2.current_root := by
    rcases root_of_reply (AbstractLedger.machine.final pre) c with hnone | hsome
    · rw [hnone] at hroot
      contradiction
    · exact Option.some.inj (hroot.symm.trans hsome)
  have hknown : root ∈ (AbstractLedger.machine.final (pre ++ [c])).roots := by
    rw [hcurrent, AbstractLedger.machine.final_concat]
    exact current_root_mem _
  have hstill : root ∈ (AbstractLedger.machine.final (calls ++ later)).roots := by
    have hsplit : calls ++ later = (pre ++ [c]) ++ (post ++ later) := by simp [hcalls]
    rw [hsplit]
    exact mem_roots_mono (final_issued _ _) hknown
  have h := run_represents (calls ++ later)
  rw [h.isValidRoot, decide_eq_true hstill, Bool.true_and, InWindow, h.current_epoch]
  exact decide_eq_true_iff

/-- The root of a registration, one epoch later. -/
theorem carried_root_valid_iff_next_epoch :
    let alice : Call := .register { account_id := StdString.ofAscii "alice", public_key := {} }
    let root := rootFor 0 { value := 2 }
    (machine.event create alice).reply.root? = some root ∧
      ((machine.final [alice, .advanceEpoch]).isValidRoot root = true ↔
        InWindow (machine.final [alice, .advanceEpoch]).current_epoch_ root) := by
  intro alice root
  have hroot : (machine.event create alice).reply.root? = some root := by decide +kernel
  have he : machine.event create alice ∈ machine.events [alice] := List.mem_singleton.mpr rfl
  exact ⟨hroot, carried_root_valid_iff [alice] [.advanceEpoch] he hroot⟩

/-! ### What spoils a transaction -/

/-- The call makes the transaction unacceptable: it moves the epoch away from
    its root, or it is an accepted transaction that spends its PRF output or
    leaves too little for it. -/
def Spoils (m : PlaintextModel) (t : Transaction) (call : Call) : Prop :=
  (∃ epoch, call.requestedEpoch m = some epoch ∧ ¬ InWindow epoch t.referenced_root) ∨
  ∃ u : Transaction, call = u.call ∧ (m.exec call).1.accepted = true ∧
    (u.prf_output.bytes = t.prf_output.bytes ∨ ¬ t.Covered (u.settle m.balanceRef))

section Waiting

variable {m : PlaintextModel} {l : AbstractLedger} {t : Transaction}

/-- A root that is valid stays known, so only the window decides. -/
theorem Represents.isValidRoot_exec (h : Represents m l) {root : RootReference}
    (hvalid : m.isValidRoot root = true) (call : Call) :
    (m.exec call).2.isValidRoot root = true ↔
      InWindow ((call.requestedEpoch m).getD m.current_epoch_) root := by
  have h' := (h.exec call).2
  rw [h.isValidRoot, Bool.and_eq_true, decide_eq_true_eq] at hvalid
  rw [← current_epoch_exec, h'.isValidRoot, h'.current_epoch,
    decide_eq_true (mem_roots_mono (exec_issued l call) hvalid.1), Bool.true_and]
  exact decide_eq_true_iff

theorem Represents.inWindow_of_valid (h : Represents m l) {root : RootReference}
    (hvalid : m.isValidRoot root = true) : InWindow m.current_epoch_ root := by
  rw [h.isValidRoot, Bool.and_eq_true] at hvalid
  have hin : l.inWindow root.epoch = true := hvalid.2
  rw [AbstractLedger.inWindow, decide_eq_true_eq] at hin
  rw [h.current_epoch]
  exact hin

/-- A call that is no accepted transaction spends no PRF output. -/
theorem unseen_exec {call : Call} (hnone : ifAccepted Call.prf_output? call (m.exec call).1 = none)
    {prf : PRFOutput} (hunseen : m.hasSeenPrfOutputInCurrentEpoch prf = false) :
    (m.exec call).2.hasSeenPrfOutputInCurrentEpoch prf = false := by
  rw [hasSeen_eq_false] at hunseen ⊢
  rcases prf_step (m.exec_transition call) with ⟨_, _, hseen⟩ | ⟨_, _, hseen⟩
  · rw [hseen, hnone]
    exact hunseen
  · rw [hseen]
    exact Finset.notMem_empty _

/-- Nor does it touch a balance. -/
theorem covered_exec {call : Call} (hrejected : (m.exec call).1.rejected = true ∨
      (∀ u, call ≠ .mint u) ∧ ∀ u, call ≠ .transfer u)
    (hindices : ∀ i ∈ t.indices, m.isValidAccountIndex i = true)
    (hcovered : t.Covered m.balanceRef) : t.Covered (m.exec call).2.balanceRef := by
  cases t with
  | mint t => trivial
  | transfer t =>
    have hvalid := hindices t.sender_index (by simp [Transaction.indices])
    have hstep := m.exec_transition call
    have hbalance := inspectBalance_unchanged hstep hrejected (inspectBalance_of_valid hvalid)
    rw [inspectBalance_of_valid (isValidAccountIndex_mono hstep hvalid)] at hbalance
    show t.value ≤ (m.exec call).2.balanceRef t.sender_index
    rw [Option.some.inj hbalance]
    exact hcovered

/-- After an accepted transaction. -/
theorem waits_accepted (h : Represents m l) (hwaits : (m.exec t.call).1.accepted = true)
    {u : Transaction} (hu : (m.exec u.call).1.accepted = true) :
    ((m.exec u.call).2.exec t.call).1.accepted = true ↔
      u.prf_output.bytes ≠ t.prf_output.bytes ∧ t.Covered (u.settle m.balanceRef) := by
  obtain ⟨hid, hindices, hvalid, hunseen, _⟩ := accepted_iff.mp hwaits
  obtain ⟨l', h', hafter⟩ := h.after hu
  rw [accepted_iff, unseen_after h h' hafter, balanceRef_after h h' hafter]
  constructor
  · intro ⟨_, _, _, ⟨_, hother⟩, hcovered⟩
    exact ⟨Ne.symm hother, hcovered⟩
  · intro ⟨hother, hcovered⟩
    refine ⟨hid, ?_, (isValidRoot_after h h' hafter _).mpr (Or.inl hvalid),
      ⟨hunseen, Ne.symm hother⟩, hcovered⟩
    intro i hi
    rw [isValidAccountIndex_after h h' hafter]
    exact hindices i hi

/-- After any other call. -/
theorem waits_other (h : Represents m l) (hwaits : (m.exec t.call).1.accepted = true) {call : Call}
    (hother : ∀ u : Transaction, call = u.call → (m.exec call).1.accepted = false) :
    ((m.exec call).2.exec t.call).1.accepted = true ↔
      InWindow ((call.requestedEpoch m).getD m.current_epoch_) t.referenced_root := by
  obtain ⟨hid, hindices, hvalid, hunseen, hcovered⟩ := accepted_iff.mp hwaits
  have hnone : ifAccepted Call.prf_output? call (m.exec call).1 = none := by
    cases call with
    | mint u => exact ifAccepted_of_refused _ (hother (.mint u) rfl)
    | transfer u => exact ifAccepted_of_refused _ (hother (.transfer u) rfl)
    | _ => exact ifAccepted_of_none _ rfl _
  have hrejected : (m.exec call).1.rejected = true ∨
      (∀ u, call ≠ .mint u) ∧ ∀ u, call ≠ .transfer u := by
    cases call with
    | mint u => exact Or.inl (rejected_of_not_accepted rfl (hother (.mint u) rfl))
    | transfer u => exact Or.inl (rejected_of_not_accepted rfl (hother (.transfer u) rfl))
    | _ => simp
  rw [accepted_iff, h.isValidRoot_exec hvalid]
  constructor
  · intro hchecks
    exact hchecks.2.2.1
  · intro hwindow
    refine ⟨hid, ?_, hwindow, unseen_exec hnone hunseen,
      covered_exec hrejected hindices hcovered⟩
    intro i hi
    exact isValidAccountIndex_mono (m.exec_transition call) (hindices i hi)

/-- One call: a transaction that would be accepted still is, unless the call
    spoils it. -/
theorem waits_iff (h : Represents m l) (hwaits : (m.exec t.call).1.accepted = true) (call : Call) :
    ((m.exec call).2.exec t.call).1.accepted = true ↔ ¬ Spoils m t call := by
  by_cases hu : ∃ u : Transaction, call = u.call ∧ (m.exec call).1.accepted = true
  · obtain ⟨u, hcall, hok⟩ := hu
    rw [hcall] at hok
    rw [hcall, waits_accepted h hwaits hok]
    have hstays : u.call.requestedEpoch m = none := by cases u <;> rfl
    have hsame : ∀ u' : Transaction, u.call = u'.call → u' = u := by
      intro u' heq
      cases u <;> cases u' <;> cases heq <;> rfl
    constructor
    · intro ⟨hother, hcovered⟩ hspoils
      rcases hspoils with ⟨epoch, hrequest, _⟩ | ⟨u', heq, _, hspent⟩
      · rw [hstays] at hrequest
        contradiction
      · rw [hsame u' heq] at hspent
        rcases hspent with hbytes | huncovered
        · exact hother hbytes
        · exact huncovered hcovered
    · intro hspares
      constructor
      · intro hbytes
        exact hspares (Or.inr ⟨u, rfl, hok, Or.inl hbytes⟩)
      · by_contra huncovered
        exact hspares (Or.inr ⟨u, rfl, hok, Or.inr huncovered⟩)
  · have hother : ∀ u : Transaction, call = u.call → (m.exec call).1.accepted = false := by
      intro u hcall
      rw [← Bool.not_eq_true]
      intro hok
      exact hu ⟨u, hcall, hok⟩
    rw [waits_other h hwaits hother]
    constructor
    · intro hwindow hspoils
      rcases hspoils with ⟨epoch, hrequest, hout⟩ | ⟨u, hcall, hok, _⟩
      · rw [hrequest] at hwindow
        exact hout hwindow
      · exact hu ⟨u, hcall, hok⟩
    · intro hspares
      cases hrequest : call.requestedEpoch m with
      | none =>
        -- the epoch stays, and the root was in the window before
        obtain ⟨_, _, hvalid, _⟩ := accepted_iff.mp hwaits
        exact h.inWindow_of_valid hvalid
      | some epoch =>
        by_contra hout
        exact hspares (Or.inl ⟨epoch, hrequest, hout⟩)

end Waiting

/-- A transaction that would be accepted at the end of a run stays acceptable
    all along a continuation exactly when no call of the continuation
    spoils it. -/
theorem pending_until_spoiled (calls later : List Call) (t : Transaction)
    (hwaits : ((machine.final calls).exec t.call).1.accepted = true) :
    (∀ front, front <+: later →
        ((machine.final (calls ++ front)).exec t.call).1.accepted = true) ↔
      (machine.startingAt (machine.final calls)).Along (fun _ m call => ¬ Spoils m t call)
        later := by
  induction later using List.reverseRecOn with
  | nil =>
    refine iff_of_true ?_ ?_
    · intro front hfront
      rw [List.prefix_nil.mp hfront, List.append_nil]
      exact hwaits
    · intro pre c post hnil
      simp at hnil
  | append_singleton later c ih =>
    rw [Machine.along_concat, ← ih, ← machine.final_append]
    -- the fronts of the longer run are those of the shorter one and itself
    constructor
    · intro hall
      have hbefore : ∀ front, front <+: later →
          ((machine.final (calls ++ front)).exec t.call).1.accepted = true :=
        fun front hfront => hall front (hfront.trans (List.prefix_append _ _))
      have hafter := hall (later ++ [c]) List.prefix_rfl
      rw [← List.append_assoc, machine.final_concat] at hafter
      exact ⟨hbefore,
        (waits_iff (run_represents _) (hbefore later List.prefix_rfl) c).mp hafter⟩
    · intro ⟨hbefore, hspares⟩ front hfront
      rcases List.prefix_concat_iff.mp hfront with heq | hshorter
      · rw [heq, ← List.append_assoc, machine.final_concat]
        exact (waits_iff (run_represents _) (hbefore later List.prefix_rfl) c).mpr hspares
      · exact hbefore front hshorter

/-- A mint waits while the epoch moves on by one, as no step leaves the window
    of its root. -/
theorem pending_until_spoiled_one_epoch :
    let calls : List Call :=
      [.register { account_id := StdString.ofAscii "alice", public_key := {} }]
    let mint : Transaction := .mint {
      transaction_id := StdString.ofAscii "mint-1"
      recipient_index := { value := 0 }
      value := 5
      prf_output := { bytes := [1] }
      referenced_root := rootFor 0 { value := 2 } }
    ((machine.final calls).exec mint.call).1.accepted = true ∧
      ((∀ front, front <+: [Call.advanceEpoch] →
          ((machine.final (calls ++ front)).exec mint.call).1.accepted = true) ↔
        (machine.startingAt (machine.final calls)).Along (fun _ m call => ¬ Spoils m mint call)
          [.advanceEpoch]) := by
  intro calls mint
  have hwaits : ((machine.final calls).exec mint.call).1.accepted = true := by decide +kernel
  exact ⟨hwaits, pending_until_spoiled calls [.advanceEpoch] mint hwaits⟩

end PlaintextModel

end Prifhete
