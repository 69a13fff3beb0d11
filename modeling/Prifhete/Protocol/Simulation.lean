import Prifhete.Lib.Simulation
import Prifhete.Protocol.Ledger
import Prifhete.State.Queries

/-! # The protocol layer on top of the model

    Every run of model and entry points is a run of the model alone, with
    the entry points translated or skipped, so whatever is known about the
    runs of the model holds with the entry points among the calls. What the
    entry points answer is no guide to what they have done: none reports
    success, and a registration that has changed the model says that it is
    not implemented.
-/

namespace Prifhete

open PlaintextModel (QueriesAgree)

namespace Protocol

/-- What a call of the layer is told of the reply of the model to the call
    that it leads to. -/
inductive Says : Call → Reply → PlaintextModel.Reply → Prop where
  | model (call : PlaintextModel.Call) (reply : PlaintextModel.Reply) :
    Says (.model call) (.model reply) reply
  | stored (request : RegistrationRequest) :
    Says (.registration request)
      (.registration
        { entry := request.entry
          status := unimplementedStatus "Registration is not implemented" })
      (.status okStatus)
  | refused (request : RegistrationRequest) {status : Status} (hrefused : status.ok = false) :
    Says (.registration request) (.registration { entry := {}, status := status }) (.status status)
  | lengthError (request : RegistrationRequest) :
    Says (.registration request) .lengthError .lengthError

/-- The reply reports success. -/
def Reply.succeeds : Reply → Bool
  | .model reply => reply.accepted
  | .registration result => result.status.ok
  | .processed result => result.status.ok
  | .lengthError => false

/-- The three ways a registration may end, and what `UpsertAccount` says in
    each of them. -/
theorem registration_cases (m : PlaintextModel) (request : RegistrationRequest) :
    let reply := (exec m (.registration request)).1
    let reply' := (m.exec (.upsertAccount request.entry)).1
    (request.account_id = [] ∧
      reply =
        .registration { entry := {}, status := ⟨false, "account_id must not be empty"⟩ } ∧
      reply' = .status ⟨false, "account_id must not be empty"⟩) ∨
    (reply = .registration
        { entry := request.entry
          status := unimplementedStatus "Registration is not implemented" } ∧
      reply' = .status okStatus) ∨
    (reply = .lengthError ∧ reply' = .lengthError) := by
  intro reply reply'
  by_cases hid : request.account_id = []
  · have hrefused : m.upsertAccount request.entry =
        some (⟨false, "account_id must not be empty"⟩, m) := by
      unfold PlaintextModel.upsertAccount PlaintextModel.validateAccountId
      rw [show request.entry.account_id = [] from hid]
      rfl
    refine Or.inl ⟨hid, ?_, ?_⟩
    · simp [reply, exec, registration, hid]
    · simp [reply', PlaintextModel.exec, hrefused]
  · have hnonempty : request.account_id.isEmpty = false := by simpa using hid
    cases hupsert : m.upsertAccount request.entry with
    | none =>
      refine Or.inr (Or.inr ⟨?_, ?_⟩)
      · simp [reply, exec, registration, hnonempty, hupsert]
      · simp [reply', PlaintextModel.exec, hupsert]
    | some result =>
      obtain ⟨status, m'⟩ := result
      -- with an id there is nothing left to refuse
      have hok : status = okStatus := by
        cases hindex : m.account_indices_.lookup request.entry.account_id with
        | some index =>
          rw [PlaintextModel.upsertAccount_of_known hid hindex] at hupsert
          cases hupsert
          rfl
        | none =>
          rw [PlaintextModel.upsertAccount_of_unknown hid hindex, Option.map_eq_some_iff] at hupsert
          obtain ⟨states, _, hresult⟩ := hupsert
          cases hresult
          rfl
      refine Or.inr (Or.inl ⟨?_, ?_⟩)
      · simp [reply, exec, registration, hnonempty, hupsert, hok]
      · simp [reply', PlaintextModel.exec, hupsert, hok]

theorem registration_says (m : PlaintextModel) (request : RegistrationRequest) :
    Says (.registration request) (exec m (.registration request)).1
      (m.exec (.upsertAccount request.entry)).1 := by
  rcases registration_cases m request with ⟨_, hreply, hreply'⟩ | ⟨hreply, hreply'⟩ |
    ⟨hreply, hreply'⟩
  · rw [hreply, hreply']
    exact .refused request rfl
  · rw [hreply, hreply']
    exact .stored request
  · rw [hreply, hreply']
    exact .lengthError request

/-- The model follows the whole program. -/
theorem follows_model :
    Machine.Follows machine PlaintextModel.machine (fun _ _ => True) Call.onModel? Eq Says where
  init := rfl
  step := by
    intro m m' call call' _ htranslate heq
    subst heq
    refine ⟨?_, (exec_of_onModel htranslate).1⟩
    cases call with
    | model call =>
      cases htranslate
      exact .model call' _
    | registration request =>
      cases htranslate
      exact registration_says m request
    | _ => contradiction
  skip := by
    intro m m' call _ hskip heq
    rw [← heq]
    exact (exec_of_onModel_none hskip).1

/-- No entry point reports success. -/
theorem succeeds_of_entryPoint (m : PlaintextModel) {call : Call} (h : ∀ c, call ≠ .model c) :
    (exec m call).1.succeeds = false := by
  cases call with
  | model call => exact absurd rfl (h call)
  | registration request =>
    rcases registration_cases m request with ⟨_, hreply, _⟩ | ⟨hreply, _⟩ | ⟨hreply, _⟩
    · rw [hreply]
      rfl
    · rw [hreply]
      rfl
    · rw [hreply]
      rfl
  | processMintTransaction transaction =>
    simp only [exec, processMintTransaction, mint]
    split
    · rfl
    · rfl
  | processTransferTransaction transaction =>
    simp only [exec, processTransferTransaction, transfer]
    split
    · rfl
    · rfl

/-- An entry point that has changed the model is a registration whose entry
    is stored and which says that it is not implemented. -/
theorem changed_by_entryPoint {m : PlaintextModel} (h : PlaintextModel.AccountsAgree m)
    {call : Call} (hentry : ∀ c, call ≠ .model c) (hchanged : (exec m call).2 ≠ m) :
    ∃ request, call = .registration request ∧
      (exec m call).1 = .registration
        { entry := request.entry
          status := unimplementedStatus "Registration is not implemented" } ∧
      (exec m call).2.findAccount request.account_id = some request.entry := by
  cases call with
  | model call => exact absurd rfl (hentry call)
  | registration request =>
    rw [exec_registration] at hchanged ⊢
    have hstores : ¬ m.StoresNothing request.entry :=
      fun hnothing => hchanged (PlaintextModel.upsertAccount_of_storesNothing h hnothing)
    have hstored := (PlaintextModel.upsertAccount_of_stores h hstores).2
    refine ⟨request, rfl, ?_, hstored⟩
    have hid : request.account_id ≠ [] := fun hempty => hstores (Or.inl hempty)
    rcases registration_cases m request with ⟨hempty, _⟩ | ⟨hreply, _⟩ | ⟨_, hthrown⟩
    · exact absurd hempty hid
    · exact hreply
    · -- what throws changes nothing
      simp only [PlaintextModel.exec] at hchanged hthrown
      cases hupsert : m.upsertAccount request.entry with
      | none =>
        rw [hupsert] at hchanged
        exact absurd rfl hchanged
      | some result =>
        rw [hupsert] at hthrown
        contradiction
  | processMintTransaction transaction => simp [exec] at hchanged
  | processTransferTransaction transaction => simp [exec] at hchanged

/-- **The protocol layer adds nothing to the model.** Every run of the whole
    program ends where the translated run of the model does, with replies
    that say what the model has said, and with all queries answered as the
    ledger answers them; and the entry points never report success, not even
    the registrations that have stored their entry. -/
theorem entry_points_follow_model (calls : List Call) :
    let calls' := calls.filterMap Call.onModel?
    machine.final calls = PlaintextModel.machine.final calls' ∧
    List.Forall₂ (fun e e' => e.call.onModel? = some e'.call ∧ Says e.call e.reply e'.reply)
      ((machine.events calls).filter fun e => e.call.onModel?.isSome)
      (PlaintextModel.machine.events calls') ∧
    QueriesAgree (machine.final calls) (AbstractLedger.machine.final calls') ∧
    ∀ e ∈ machine.events calls, (∀ c, e.call ≠ .model c) →
      e.reply.succeeds = false ∧ (e.after ≠ e.before →
        ∃ request, e.call = .registration request ∧
          e.reply = .registration
            { entry := request.entry
              status := unimplementedStatus "Registration is not implemented" } ∧
          e.after.findAccount request.account_id = some request.entry) := by
  intro calls'
  have hall := machine.along_true calls
  have hfinal : machine.final calls = PlaintextModel.machine.final calls' :=
    follows_model.final hall
  refine ⟨hfinal, ?_, ?_, ?_⟩
  · exact (follows_model.events hall).imp fun _ _ hevents => ⟨hevents.call, hevents.reply⟩
  · rw [hfinal]
    exact (PlaintextModel.run_represents calls').queries
  · intro e he hentry
    obtain ⟨pre, call, post, _, hevent⟩ := machine.mem_events.mp he
    rw [hevent] at hentry ⊢
    exact ⟨succeeds_of_entryPoint _ hentry, changed_by_entryPoint (accounts_agree pre) hentry⟩

end Protocol

end Prifhete
