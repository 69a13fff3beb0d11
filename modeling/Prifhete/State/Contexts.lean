import Prifhete.State.Futures
import Prifhete.State.Pending

/-! # Nothing in the state is out of reach

    Two runs end in the same state, member by member, exactly when no
    client can tell them apart: no sequence of further calls is answered
    differently and no query after it. What the queries do not show are the
    old roots. To ask whether one of them has ever been issued, a client
    registers an account, should there be none, and submits a mint that
    references the root (`askFor`): the text of the refusal tells.
-/

namespace Prifhete

open PlaintextModel AbstractLedger

namespace PlaintextModel

/-- The two calls that ask for a root. -/
def askFor (root : RootReference) : List Call :=
  [.register { account_id := StdString.ofAscii "anyone", public_key := {} },
    .mint {
      transaction_id := StdString.ofAscii "question"
      recipient_index := { value := 0 }
      prf_output := {}
      referenced_root := root }]

/-- The reply refuses a root as one that was never issued. -/
def Reply.SaysUnknown (reply : Reply) : Prop :=
  ∃ status, reply.status? = some status ∧ status.message = "referenced_root is not known"

end PlaintextModel

namespace AbstractLedger

variable {l : AbstractLedger}

/-- Whether a registration is accepted or not, there is an account after it,
    and no root of another epoch is issued. -/
theorem exec_register_asks {request : RegistrationRequest} (hid : request.account_id ≠ []) :
    (l.exec (.register request)).2.hasIndex { value := 0 } = true ∧
      ∀ root : RootReference, root.epoch ≠ l.epoch →
        (root ∈ (l.exec (.register request)).2.roots ↔ root ∈ l.roots) := by
  have hsome : ∀ k : AbstractLedger, 0 < k.accounts.records.length →
      k.hasIndex { value := 0 } = true := by
    intro k hpos
    exact decide_eq_true hpos
  simp only [AbstractLedger.exec]
  split
  · next hrefused =>
    refine ⟨hsome l ?_, fun _ _ => Iff.rfl⟩
    -- the id is there already
    by_contra hnone
    have hempty : l.accounts.records = [] :=
      List.length_eq_zero_iff.mp (Nat.eq_zero_of_not_pos hnone)
    have hfresh : request.account_id ∉ l.ids := by
      rw [ids, Registry.keys, hempty]
      exact List.not_mem_nil
    rw [registerChecks_ok.mpr ⟨hid, hfresh⟩] at hrefused
    contradiction
  split
  · refine ⟨hsome _ ?_, ?_⟩
    · show 0 < ((l.openAccount _).issue l.epoch).accounts.records.length
      rw [issue_records, List.length_map, openAccount_records]
      split
      · simp
      · next hknown =>
        rw [not_not] at hknown
        obtain ⟨state, hstate, _⟩ := List.mem_map.mp hknown
        exact List.length_pos_of_mem hstate
    · intro root hother
      show root ∈ ((l.openAccount _).issue l.epoch).roots ↔ _
      rw [issue_roots, List.mem_append, List.mem_singleton, roots, openAccount_issued]
      constructor
      · intro hmem
        rcases hmem with hold | hnew
        · exact hold
        · rw [hnew] at hother
          exact absurd rfl hother
      · exact Or.inl
  · next hfull =>
    have hlength : ¬ l.accounts.records.length < maxSize := fun hlt => hfull (decide_eq_true hlt)
    have hpos := maxSize_pos
    exact ⟨hsome l (by omega), fun _ _ => Iff.rfl⟩

theorem status_of_mint (l : AbstractLedger) (t : PublicToPrivateMint) :
    (l.exec (.mint t)).1.status? = some (firstFailure (l.mintChecks t)) := by
  simp only [AbstractLedger.exec]
  split
  · rfl
  · next hok =>
    rw [Bool.not_eq_true', Bool.not_eq_false] at hok
    rw [firstFailure_of_ok hok]
    rfl

theorem mem_roots_form {root : RootReference} (hroot : root ∈ l.roots) :
    ∃ epoch version, root = rootFor epoch version := by
  rw [roots, rootsOf, List.mem_mapIdx] at hroot
  obtain ⟨k, _, heq⟩ := hroot
  exact ⟨_, _, heq.symm⟩

/-- A mint whose other data is in order is refused for an unknown root
    exactly when the root was never issued. -/
theorem mint_saysUnknown_iff {t : PublicToPrivateMint} (hid : t.transaction_id ≠ [])
    (hindex : l.hasIndex t.recipient_index = true) {epoch : EpochNumber} {version : RootVersion}
    (hroot : t.referenced_root = rootFor epoch version) :
    (l.exec (.mint t)).1.SaysUnknown ↔ t.referenced_root ∉ l.roots := by
  have hbytes : (l.roots.any fun known => known.root.bytes = t.referenced_root.root.bytes) =
      decide (t.referenced_root ∈ l.roots) := by
    rw [Bool.eq_iff_iff, List.any_eq_true, decide_eq_true_eq]
    constructor
    · intro ⟨known, hknown, hsame⟩
      -- the bytes of a root tell its epoch and its version
      obtain ⟨epoch', version', hform⟩ := mem_roots_form hknown
      rw [decide_eq_true_eq, hroot, hform] at hsame
      obtain ⟨rfl, rfl⟩ := rootFor_key_inj.mp (congrArg toKey hsame)
      rw [hroot, ← hform]
      exact hknown
    · intro hmem
      exact ⟨_, hmem, decide_eq_true rfl⟩
  have hstatus : firstFailure (l.mintChecks t) =
      firstFailure (l.rootChecks t.referenced_root ++
        [(l.isFresh t.prf_output, "duplicate PRFOutput in current epoch")]) := by
    have hpassed : (!t.transaction_id.isEmpty) = true := by simpa using hid
    rw [mintChecks, hpassed, hindex]
    rfl
  unfold PlaintextModel.Reply.SaysUnknown
  rw [status_of_mint, hstatus, rootChecks, hbytes]
  by_cases hmem : t.referenced_root ∈ l.roots
  · -- the text is one of the other three
    cases hwindow : l.inWindow t.referenced_root.epoch <;>
      cases hfresh : l.isFresh t.prf_output <;> simp [hmem, okStatus]
  · simp [hmem]

end AbstractLedger

namespace PlaintextModel

theorem SameAnswers.refl (m : PlaintextModel) : SameAnswers m m := by
  constructor
  all_goals intros
  all_goals rfl

section Asking

variable {m m' : PlaintextModel} {l l' : AbstractLedger}

/-- The replies to the further calls of a run. -/
def repliesFrom (m : PlaintextModel) (later : List Call) : List Reply :=
  ((machine.startingAt m).events later).map (·.reply)

/-- The second answer to `askFor` tells whether a root of another epoch was
    ever issued. -/
theorem askFor_tells (h : Represents m l) (version : RootVersion) {epoch : EpochNumber}
    (hother : epoch ≠ l.epoch) :
    (∃ reply, (repliesFrom m (askFor (rootFor epoch version)))[1]? = some reply ∧
        reply.SaysUnknown) ↔ rootFor epoch version ∉ l.roots := by
  let request : RegistrationRequest :=
    { account_id := StdString.ofAscii "anyone", public_key := {} }
  let question : PublicToPrivateMint :=
    { transaction_id := StdString.ofAscii "question", recipient_index := { value := 0 },
      prf_output := {}, referenced_root := rootFor epoch version }
  have hsecond : (repliesFrom m (askFor (rootFor epoch version)))[1]? =
      some ((m.exec (.register request)).2.exec (.mint question)).1 := rfl
  have hrequest : request.account_id ≠ [] := by decide
  have hquestion : question.transaction_id ≠ [] :=
    show StdString.ofAscii "question" ≠ [] by decide
  have hform : question.referenced_root = rootFor epoch version := rfl
  obtain ⟨hindex, hroots⟩ := exec_register_asks (l := l) hrequest
  have hreply := ((h.exec (.register request)).2.exec (.mint question)).1
  have htells := mint_saysUnknown_iff hquestion hindex hform
  rw [hroots (rootFor epoch version) hother] at htells
  rw [hsecond, hreply, ← htells]
  simp

/-- Models that are told apart neither by queries nor by asking for roots
    know the same roots. -/
theorem same_roots (h : Represents m l) (h' : Represents m' l') (hsame : SameAnswers m m')
    (hasked : ∀ root, repliesFrom m (askFor root) = repliesFrom m' (askFor root))
    (root : RootReference) : root ∈ l.roots ↔ root ∈ l'.roots := by
  have hepoch : l.epoch = l'.epoch := by
    rw [← h.current_epoch, ← h'.current_epoch]
    exact hsame.current_epoch
  by_cases hcurrent : root.epoch = l.epoch
  · -- a root of the current epoch is valid if it is known
    have hvalid := hsame.isValidRoot root
    have hin : ∀ k : AbstractLedger, root.epoch = k.epoch → k.inWindow root.epoch = true := by
      intro k hk
      rw [hk, inWindow]
      simp
    rw [h.isValidRoot, h'.isValidRoot, hin l hcurrent, hin l' (hcurrent.trans hepoch),
      Bool.and_true, Bool.and_true, decide_eq_decide] at hvalid
    exact hvalid
  · by_cases hform : ∃ epoch version, root = rootFor epoch version
    · obtain ⟨epoch, version, rfl⟩ := hform
      have htells := askFor_tells h version hcurrent
      have htells' := askFor_tells h' version (hepoch ▸ hcurrent)
      rw [hasked] at htells
      exact not_iff_not.mp (htells.symm.trans htells')
    · have hnone : ∀ k : AbstractLedger, root ∉ k.roots :=
        fun k hmem => hform (mem_roots_form hmem)
      exact iff_of_false (hnone l) (hnone l')

end Asking

/-- **Indistinguishable is equal.** Two runs end in the same state exactly
    when every continuation is answered alike after both, call by call and
    query by query. -/
theorem same_state_iff_indistinguishable (calls calls' : List Call) :
    machine.final calls = machine.final calls' ↔
      ∀ later,
        repliesFrom (machine.final calls) later = repliesFrom (machine.final calls') later ∧
        SameAnswers (machine.final (calls ++ later)) (machine.final (calls' ++ later)) := by
  constructor
  · intro heq later
    rw [machine.final_append, machine.final_append, heq]
    exact ⟨rfl, SameAnswers.refl _⟩
  · intro hsame
    have h := run_represents calls
    have h' := run_represents calls'
    have hnow := (hsame []).2
    rw [List.append_nil, List.append_nil] at hnow
    refine h.eq_of h' (records_of_answers h h' hnow)
      (same_roots h h' hnow fun root => (hsame (askFor root)).1) ?_ ?_ ?_
    · rw [← h.current_root_versions, ← h'.current_root_versions, hnow.current_root_versions]
    · rw [← h.current_root, ← h'.current_root]
      exact hnow.current_root_reference
    · rw [← h.spent.1, ← h'.spent.1]
      exact hnow.accepted_prf_outputs

end PlaintextModel

end Prifhete
