import Prifhete.State.Replay

/-! # Entries after a new root

    Every operation that issues a root ends with a loop over the account
    vector. `Resynced` says what the loop leaves of the entries before: the
    same entries in the same places, a new one perhaps behind them, each at
    the current epoch and root and otherwise unchanged. That the entry map
    says the same is the agreement of the account structures.
-/

namespace Prifhete

namespace PlaintextModel

/-- The entries of `m'` are those of `m`, and possibly new ones, brought up to
    its epoch and root. -/
def Resynced (m m' : PlaintextModel) : Prop :=
  ∃ added, m'.entries = (m.entries ++ added).map m'.refreshEntry

theorem issueRoot_entries (m : PlaintextModel) :
    m.issueRoot.entries = m.entries.map m.issueRoot.refreshEntry := by
  simp only [entries, issueRoot_account_states, List.map_map]
  rfl

/-- Issuing a root after entries have been added. -/
theorem Resynced.issueRoot {m p : PlaintextModel} {added : List PrivateAccountEntry}
    (h : p.entries = m.entries ++ added) : Resynced m p.issueRoot :=
  ⟨added, by rw [issueRoot_entries, h]⟩

theorem Resynced.issueRoot_of_same {m p : PlaintextModel} (h : p.entries = m.entries) :
    Resynced m p.issueRoot :=
  Resynced.issueRoot (h.trans (List.append_nil _).symm)

theorem Resynced.enterEpoch (m : PlaintextModel) (epoch : EpochNumber) :
    Resynced m (m.enterEpoch epoch) :=
  Resynced.issueRoot_of_same rfl

/-- What is refreshed once more shows the later epoch and root only. -/
theorem Resynced.nextEpoch {m p : PlaintextModel} (h : Resynced m p) : Resynced m p.nextEpoch := by
  obtain ⟨added, hentries⟩ := h
  refine ⟨added, ?_⟩
  rw [PlaintextModel.nextEpoch, PlaintextModel.enterEpoch, issueRoot_entries]
  show p.entries.map _ = _
  rw [hentries, List.map_map]
  rfl

theorem Resynced.advancedBy (m : PlaintextModel) {n : Nat} (hpos : 0 < n) :
    Resynced m (m.advancedBy n) := by
  obtain ⟨k, rfl⟩ : ∃ k, n = k + 1 := ⟨n - 1, by omega⟩
  induction k with
  | zero => exact Resynced.enterEpoch _ _
  | succ k ih =>
    rw [advancedBy_succ]
    exact (ih (Nat.succ_pos k)).nextEpoch

/-- Accepted transactions that issue a root, and changes of the epoch. -/
theorem Transition.resynced {m m' : PlaintextModel} {call : Call} {reply : Reply}
    {trail : List PlaintextModel} (hstep : Transition m call reply trail m')
    (hissues : (call.issuesRoot = true ∧ reply.accepted = true) ∨
      m.current_epoch_ ≠ m'.current_epoch_) : Resynced m m' := by
  cases hstep with
  | idle hreply =>
    rw [hreply] at hissues
    simp at hissues
  | reached | replaced | inserted =>
    -- no root, and the same epoch
    rcases hissues with ⟨hissues, _⟩ | hepoch
    · contradiction
    · exact absurd rfl hepoch
  | registered _ _ hpush => exact Resynced.issueRoot (push_back_entries hpush)
  | minted =>
    apply Resynced.issueRoot_of_same
    rw [updateBalance_entries]
    rfl
  | transferred =>
    apply Resynced.issueRoot_of_same
    rw [updateBalance_entries, updateBalance_entries]
    rfl
  | advanced _ _ hpos => exact Resynced.advancedBy m hpos
  | movedBack => exact Resynced.enterEpoch m _

/-! ### What the queries see -/

section Queries

variable {m m' : PlaintextModel} (h : Resynced m m')
include h

/-- Every entry is at the current epoch and root. -/
theorem Resynced.synced {entry : PrivateAccountEntry} (hentry : entry ∈ m'.entries) :
    entry.epoch = m'.current_epoch_ ∧ entry.inclusion_root = m'.current_root_.root := by
  obtain ⟨added, hentries⟩ := h
  rw [hentries] at hentry
  obtain ⟨old, _, rfl⟩ := List.mem_map.mp hentry
  exact ⟨rfl, rfl⟩

/-- An entry that was there before is there still, refreshed. -/
theorem Resynced.findAccount (hm : AccountsAgree m) (hm' : AccountsAgree m') {id : StdString}
    {entry : PrivateAccountEntry} (hfind : m.findAccount id = some entry) :
    m'.findAccount id = some (m'.refreshEntry entry) := by
  obtain ⟨added, hentries⟩ := h
  obtain ⟨hmem, hid⟩ := (hm.stores id entry).mp hfind
  refine (hm'.stores id _).mpr ⟨?_, hid⟩
  rw [hentries]
  exact List.mem_map_of_mem (List.mem_append_left _ hmem)

theorem Resynced.findAccountByIndex {i : AccountIndex} {entry : PrivateAccountEntry}
    (hfind : m.findAccountByIndex i = some entry) :
    m'.findAccountByIndex i = some (m'.refreshEntry entry) := by
  obtain ⟨added, hentries⟩ := h
  rw [findAccountByIndex_eq_entries] at hfind ⊢
  have hlt := (List.getElem?_eq_some_iff.mp hfind).1
  rw [hentries, List.getElem?_map, List.getElem?_append_left hlt, hfind, Option.map_some]

end Queries

/-- What `Register` returns is what the queries report afterwards. -/
theorem register_reported {m m' : PlaintextModel} (h : AccountsAgree m)
    {request : RegistrationRequest} {result : RegistrationResult}
    (hregister : m.register request = some (result, m')) (hok : result.status.ok = true) :
    m'.findAccountIndex request.account_id = some result.account_index ∧
      m'.findAccountByIndex result.account_index = some result.entry ∧
      m'.findAccount request.account_id = some result.entry ∧
      m'.current_root_reference = result.root := by
  by_cases hrefused : request.account_id = [] ∨ m.hasAccount request.account_id = true
  · obtain ⟨refused, hresult, hrefusal, _⟩ := register_refused hrefused
    rw [hresult] at hregister
    cases hregister
    rw [hok] at hrefusal
    contradiction
  · obtain ⟨hid, hnew⟩ := not_or.mp hrefused
    rw [Bool.not_eq_true] at hnew
    rw [register_of_fresh hid hnew] at hregister
    obtain ⟨states, hpush, hresult⟩ := Option.map_eq_some_iff.mp hregister
    have hagree := h.registered hnew hpush
    cases hresult
    -- the new id stands at the end of the vector
    have hindex : (m.registered request states).findAccountIndex request.account_id =
        some { value := m.account_states_.size } := by
      have hsize : m.account_states_.size.toNat = m.ids.length := by
        rw [StdVector.toNat_size, ids, List.length_map]
      rw [findAccountIndex_eq_some hagree, registered_ids hpush, hsize,
        List.getElem?_concat_length]
    obtain ⟨entry, hentry, _, hfind⟩ := findAccount_of_index hagree hindex
    have hreturned : entry =
        ((m.registered request states).account_states_.at_index m.account_states_.size).entry := by
      have hread := hentry
      unfold findAccountByIndex at hread
      split at hread
      · exact (Option.some.inj hread).symm
      · contradiction
    rw [← hreturned]
    exact ⟨hindex, hentry, hfind, rfl⟩

/-- The reply to a registration carries its result. -/
theorem register_of_reply {m : PlaintextModel} {request : RegistrationRequest}
    {result : RegistrationResult} (hreply : (m.exec (.register request)).1 = .registration result) :
    m.register request = some (result, (m.exec (.register request)).2) := by
  simp only [exec] at hreply ⊢
  cases hregister : m.register request with
  | none =>
    rw [hregister] at hreply
    contradiction
  | some returned =>
    rw [hregister] at hreply
    cases hreply
    rfl

/-- The calls that issue a root in a state: the transactions and `AdvanceEpoch`
    when they are accepted, and the other two when they change the epoch. -/
def Call.Resyncs (m : PlaintextModel) : Call → Prop
  | .upsertAccount _ => False
  | .advanceToEpoch epoch => m.current_epoch_ < epoch
  | .set_current_epoch epoch => epoch ≠ m.current_epoch_
  | call => (m.exec call).1.accepted = true

theorem Call.Resyncs.issues {m : PlaintextModel} {call : Call} (h : call.Resyncs m) :
    (call.issuesRoot = true ∧ (m.exec call).1.accepted = true) ∨
      m.current_epoch_ ≠ (m.exec call).2.current_epoch_ := by
  cases call with
  | register | mint | transfer => exact Or.inl ⟨rfl, h⟩
  | upsertAccount => contradiction
  | advanceEpoch =>
    right
    rw [current_epoch_exec, Call.requestedEpoch]
    split
    · next hmax =>
      -- at the last epoch it is refused
      simp only [Call.Resyncs, exec, advanceEpoch_refused hmax] at h
      contradiction
    · exact (Word.add_one_ne_self _).symm
  | advanceToEpoch epoch =>
    have hlt : m.current_epoch_ < epoch := h
    right
    rw [current_epoch_exec, Call.requestedEpoch, if_pos hlt]
    exact UInt64.ne_of_lt hlt
  | set_current_epoch epoch =>
    right
    rw [current_epoch_exec, Call.requestedEpoch, if_neg (Ne.symm h)]
    exact Ne.symm h

/-- **Entries follow the root.** In every reachable state, after every call
    that issues a root the entry of every account, by id and by index, is at
    the current epoch and root; every account there was before has the rest
    of its entry unchanged; and what `Register` has returned is what the
    queries report. -/
theorem entries_follow_root (calls : List Call) (call : Call)
    (hresyncs : call.Resyncs (machine.final calls)) :
    let m := machine.final calls
    let m' := (m.exec call).2
    ((∀ id entry, m'.findAccount id = some entry →
        entry.epoch = m'.current_epoch ∧ entry.inclusion_root = m'.current_root) ∧
      ∀ i entry, m'.findAccountByIndex i = some entry →
        entry.epoch = m'.current_epoch ∧ entry.inclusion_root = m'.current_root) ∧
    ((∀ id entry, m.findAccount id = some entry → m'.findAccount id =
        some { entry with epoch := m'.current_epoch, inclusion_root := m'.current_root }) ∧
      ∀ i entry, m.findAccountByIndex i = some entry → m'.findAccountByIndex i =
        some { entry with epoch := m'.current_epoch, inclusion_root := m'.current_root }) ∧
    ∀ request result, call = .register request → (m.exec call).1 = .registration result →
      m'.findAccountIndex request.account_id = some result.account_index ∧
      m'.findAccountByIndex result.account_index = some result.entry ∧
      m'.findAccount request.account_id = some result.entry ∧
      m'.current_root_reference = result.root := by
  intro m m'
  have hm : AccountsAgree m := accounts_agree calls
  have hstep := m.exec_transition call
  have hm' : AccountsAgree m' := hm.step hstep
  have h : Resynced m m' := hstep.resynced hresyncs.issues
  refine ⟨⟨?_, ?_⟩, ⟨?_, ?_⟩, ?_⟩
  · intro id entry hfind
    exact h.synced ((hm'.stores id entry).mp hfind).1
  · intro i entry hfind
    rw [findAccountByIndex_eq_entries] at hfind
    exact h.synced (List.mem_of_getElem? hfind)
  · intro id entry hfind
    exact h.findAccount hm hm' hfind
  · intro i entry hfind
    exact h.findAccountByIndex hfind
  · intro request result hcall hreply
    have haccepted : (m.exec (.register request)).1.accepted = true := by
      rw [hcall] at hresyncs
      exact hresyncs
    rw [hcall] at hreply
    have hregister := register_of_reply hreply
    rw [← hcall] at hregister
    rw [hreply] at haccepted
    exact register_reported hm hregister haccepted

/-- An entry that was stored with an epoch far ahead, and a step of the epoch. -/
theorem entries_follow_root_upserted :
    let stored : PrivateAccountEntry := { account_id := StdString.ofAscii "alice", epoch := 7 }
    let m := machine.final [.upsertAccount stored]
    m.findAccount stored.account_id = some stored ∧
      (m.exec .advanceEpoch).2.findAccount stored.account_id =
        some { stored with
          epoch := 1, inclusion_root := (m.exec .advanceEpoch).2.current_root } := by
  intro stored m
  have hstored : m.findAccount stored.account_id = some stored := by decide
  have hresyncs : Call.advanceEpoch.Resyncs m := by
    show (m.exec .advanceEpoch).1.accepted = true
    decide
  obtain ⟨_, ⟨hfind, _⟩, _⟩ :=
    entries_follow_root [.upsertAccount stored] .advanceEpoch hresyncs
  exact ⟨hstored, hfind _ _ hstored⟩

end PlaintextModel

end Prifhete
