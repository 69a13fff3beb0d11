import Prifhete.State.Queries

/-! # The queries decide the future

    Two models may have come to where they are in different ways. As long
    as no call has taken either of them back to an earlier epoch, and none
    does later, it is enough that they answer every query alike: they will
    answer every later call and every later query alike. What the queries do
    not show are the roots that have left the window, and these only make a
    difference to which of three texts a root is refused with: that it is not
    known, that its metadata does not match, or that it is stale.
-/

namespace Prifhete

open PlaintextModel

/-! ### Replies up to the text of a refused root -/

/-- The texts with which a root is refused. -/
def rootTexts : List String :=
  ["referenced_root is not known", "referenced_root metadata mismatch",
    "referenced_root is stale"]

/-- A status that refuses the referenced root. -/
def Status.RefusesRoot (status : Status) : Prop :=
  status.ok = false ∧ status.message ∈ rootTexts

/-- The same reply, or the same refusal of a root with another text. -/
inductive SameButRootText : Reply → Reply → Prop
  | same (reply : Reply) : SameButRootText reply reply
  | mint {root : RootReference} {recipient_balance : UInt64} {status status' : Status}
      (h : status.RefusesRoot) (h' : status'.RefusesRoot) :
      SameButRootText (.mint { root, recipient_balance, status })
        (.mint { root, recipient_balance, status := status' })
  | transfer {root : RootReference} {sender_balance receiver_balance : UInt64}
      {status status' : Status} (h : status.RefusesRoot) (h' : status'.RefusesRoot) :
      SameButRootText (.transfer { root, sender_balance, receiver_balance, status })
        (.transfer { root, sender_balance, receiver_balance, status := status' })

namespace AbstractLedger

/-- The two ledgers agree on everything but the roots of epochs that lie
    before the window. -/
structure Alike (l l' : AbstractLedger) : Prop where
  accounts : l.accounts = l'.accounts
  spent : l.spent = l'.spent
  epoch : l.epoch = l'.epoch
  version : UInt64.ofNat l.issued.length = UInt64.ofNat l'.issued.length
  roots : ∀ root : RootReference, l.epoch.toNat ≤ root.epoch.toNat + 1 →
    (root ∈ l.roots ↔ root ∈ l'.roots)
  epochRoots : l.epochRoots = l'.epochRoots

namespace Alike

variable {l l' : AbstractLedger}

theorem current_root (h : Alike l l') : l.current_root = l'.current_root := by
  unfold AbstractLedger.current_root
  rw [h.epoch, h.version]

theorem newRoot (h : Alike l l') (epoch : EpochNumber) : l.newRoot epoch = l'.newRoot epoch := by
  unfold AbstractLedger.newRoot
  rw [UInt64.ofNat_add, UInt64.ofNat_add, h.version]

/-- Updates that issue no root. -/
theorem of_issued {k k' : AbstractLedger} (h : Alike l l') (hk : k.issued = l.issued)
    (hk' : k'.issued = l'.issued) (haccounts : k.accounts = k'.accounts)
    (hspent : k.spent = k'.spent) : Alike k k' := by
  obtain ⟨_, issued, started, _, _⟩ := k
  obtain ⟨_, issued', started', _, _⟩ := k'
  cases hk
  cases hk'
  exact ⟨haccounts, hspent, h.epoch, h.version, h.roots, h.epochRoots⟩

/-- A root for the current or a later epoch. -/
theorem issue (h : Alike l l') {epoch : EpochNumber} (hle : l.epoch.toNat ≤ epoch.toNat) :
    Alike (l.issue epoch) (l'.issue epoch) := by
  refine ⟨?_, h.spent, ?_, ?_, ?_, ?_⟩
  · apply Registry.ext
    rw [issue_records, issue_records, h.accounts, h.newRoot epoch]
  · rw [issue_epoch, issue_epoch]
  · rw [issue_issued, issue_issued, List.length_append, List.length_append, UInt64.ofNat_add,
      UInt64.ofNat_add, h.version]
  · intro root hroot
    rw [issue_epoch] at hroot
    rw [issue_roots, issue_roots, List.mem_append, List.mem_append, h.newRoot epoch,
      h.roots root (by omega)]
  · rw [issue_epochRoots, issue_epochRoots, h.epoch, h.epochRoots, h.newRoot epoch]

theorem enter (h : Alike l l') {epoch : EpochNumber} (hle : l.epoch.toNat ≤ epoch.toNat) :
    Alike (l.enter epoch) (l'.enter epoch) := by
  have hcleared : Alike { l with spent := [], once := List.nodup_nil }
      { l' with spent := [], once := List.nodup_nil } := h.of_issued rfl rfl h.accounts rfl
  exact hcleared.issue hle

theorem advanceBy (h : Alike l l') {n : Nat} (hroom : l.epoch.toNat + n < 2 ^ 64) :
    Alike (l.advanceBy n) (l'.advanceBy n) := by
  induction n with
  | zero => exact h
  | succ n ih =>
    have hn := ih (by omega)
    have hepoch := advanceBy_epoch (l := l) (n := n) (by omega)
    have hmax : (l.advanceBy n).epoch ≠ -1 := by
      intro hmax
      rw [hmax, show (-1 : UInt64).toNat = 2 ^ 64 - 1 from rfl] at hepoch
      omega
    rw [AbstractLedger.advanceBy, AbstractLedger.advanceBy, ← hn.epoch]
    apply hn.enter
    rw [Word.toNat_add_one hmax]
    exact Nat.le_succ _

theorem advanceTo (h : Alike l l') (epoch : EpochNumber) :
    Alike (l.advanceTo epoch) (l'.advanceTo epoch) := by
  have hlt := epoch.toNat_lt
  have hcurrent := l.epoch.toNat_lt
  unfold AbstractLedger.advanceTo
  rw [← h.epoch]
  exact h.advanceBy (by omega)

/-! ### Requests -/

theorem balance (h : Alike l l') (i : AccountIndex) : l.balance i = l'.balance i := by
  unfold AbstractLedger.balance
  rw [h.accounts]

theorem hasIndex (h : Alike l l') (i : AccountIndex) : l.hasIndex i = l'.hasIndex i := by
  unfold AbstractLedger.hasIndex
  rw [h.accounts]

theorem isFresh (h : Alike l l') (prf : PRFOutput) : l.isFresh prf = l'.isFresh prf := by
  unfold AbstractLedger.isFresh
  rw [h.spent]

/-- A root outside the window is refused by both, though not always with the
    same text. -/
theorem root_ok (h : Alike l l') (root : RootReference) :
    (firstFailure (l.rootChecks root)).ok = (firstFailure (l'.rootChecks root)).ok := by
  have hwindow : l.inWindow root.epoch = l'.inWindow root.epoch := by
    unfold AbstractLedger.inWindow
    rw [h.epoch]
  rw [Bool.eq_iff_iff, rootChecks_ok, rootChecks_ok, hwindow]
  constructor
  · intro ⟨hmem, hin⟩
    refine ⟨(h.roots root ?_).mp hmem, hin⟩
    rw [← hwindow] at hin
    have hnear := of_decide_eq_true hin
    omega
  · intro ⟨hmem, hin⟩
    refine ⟨(h.roots root ?_).mpr hmem, hin⟩
    rw [← hwindow] at hin
    have hnear := of_decide_eq_true hin
    omega

theorem firstFailure_rootChecks {root : RootReference}
    (hrefused : (firstFailure (l.rootChecks root)).ok = false) :
    (firstFailure (l.rootChecks root)).RefusesRoot := by
  refine ⟨hrefused, ?_⟩
  unfold rootChecks at hrefused ⊢
  generalize (l.roots.any fun known => known.root.bytes = root.root.bytes) = known at *
  generalize decide (root ∈ l.roots) = issued at *
  generalize l.inWindow root.epoch = near at *
  cases known with
  | false => simp [rootTexts]
  | true => cases issued with
    | false => simp [rootTexts]
    | true => cases near with
      | false => simp [rootTexts]
      | true => contradiction

/-- The checks of a request around those of its root. -/
theorem status (h : Alike l l') (before after : List (Bool × String)) (root : RootReference) :
    let status := firstFailure (before ++ l.rootChecks root ++ after)
    let status' := firstFailure (before ++ l'.rootChecks root ++ after)
    status = status' ∨ (status.RefusesRoot ∧ status'.RefusesRoot) := by
  intro status status'
  have hroot := h.root_ok root
  simp only [status, status', firstFailure_append]
  cases hbefore : (firstFailure before).ok with
  | false =>
    -- refused before the root is looked at
    simp [hbefore]
  | true =>
    cases hok : (firstFailure (l.rootChecks root)).ok with
    | true =>
      rw [hok] at hroot
      simp [hok, ← hroot]
    | false =>
      rw [hok] at hroot
      have hrefused := firstFailure_rootChecks hok
      have hrefused' := firstFailure_rootChecks hroot.symm
      simp [hok, ← hroot, hrefused, hrefused']

theorem mintStatus (h : Alike l l') (t : PublicToPrivateMint) :
    let status := firstFailure (l.mintChecks t)
    let status' := firstFailure (l'.mintChecks t)
    status = status' ∨ (status.RefusesRoot ∧ status'.RefusesRoot) := by
  unfold mintChecks
  rw [← h.hasIndex, ← h.isFresh]
  exact h.status _ _ t.referenced_root

theorem transferStatus (h : Alike l l') (t : PrivateTransfer) :
    let status := firstFailure (l.transferChecks t)
    let status' := firstFailure (l'.transferChecks t)
    status = status' ∨ (status.RefusesRoot ∧ status'.RefusesRoot) := by
  unfold transferChecks
  rw [← h.hasIndex, ← h.hasIndex, ← h.isFresh]
  exact h.status _ _ t.referenced_root

/-! ### Calls -/

theorem spend (h : Alike l l') (prf : PRFOutput) : Alike (l.spend prf) (l'.spend prf) := by
  apply h.of_issued (spend_issued l prf) (spend_issued l' prf)
  · rw [spend_accounts, spend_accounts, h.accounts]
  · rw [spend_spent, spend_spent, h.isFresh, h.spent]

theorem post (h : Alike l l') (i : AccountIndex) (f : UInt64 → UInt64) :
    Alike (l.post i f) (l'.post i f) := by
  refine h.of_issued rfl rfl ?_ h.spent
  apply Registry.ext
  rw [post_records, post_records, h.accounts]

theorem openAccount (h : Alike l l') (entry : PrivateAccountEntry) :
    Alike (l.openAccount entry) (l'.openAccount entry) := by
  apply h.of_issued (openAccount_issued l entry) (openAccount_issued l' entry)
  · apply Registry.ext
    rw [openAccount_records, openAccount_records, AbstractLedger.ids, AbstractLedger.ids,
      h.accounts]
  · rw [openAccount_spent, openAccount_spent, h.spent]

theorem replaceEntry (h : Alike l l') (entry : PrivateAccountEntry) :
    Alike (l.replaceEntry entry) (l'.replaceEntry entry) := by
  refine h.of_issued rfl rfl ?_ h.spent
  apply Registry.ext
  rw [replaceEntry_records, replaceEntry_records, h.accounts]

theorem minted (h : Alike l l') (t : PublicToPrivateMint) :
    Alike (l.minted t) (l'.minted t) := by
  unfold AbstractLedger.minted
  rw [← h.epoch]
  apply ((h.spend _).post _ _).issue
  show (l.spend _).epoch.toNat ≤ _
  rw [spend_epoch]

theorem transferred (h : Alike l l') (t : PrivateTransfer) :
    Alike (l.transferred t) (l'.transferred t) := by
  unfold AbstractLedger.transferred
  rw [← h.epoch]
  apply (((h.spend _).post _ _).post _ _).issue
  show (l.spend _).epoch.toNat ≤ _
  rw [spend_epoch]

theorem registered (h : Alike l l') (request : RegistrationRequest) :
    Alike (l.registered request) (l'.registered request) := by
  have hentry : l.registrationEntry request = l'.registrationEntry request := by
    unfold registrationEntry
    rw [h.epoch]
  unfold AbstractLedger.registered
  rw [← h.epoch, ← hentry]
  apply (h.openAccount _).issue
  rw [openAccount_epoch]

theorem exec_register (h : Alike l l') (request : RegistrationRequest) :
    SameButRootText (l.exec (.register request)).1 (l'.exec (.register request)).1 ∧
      Alike (l.exec (.register request)).2 (l'.exec (.register request)).2 := by
  have hchecks : l.registerChecks request = l'.registerChecks request := by
    unfold registerChecks AbstractLedger.ids
    rw [h.accounts]
  have hroom : l.hasRoom = l'.hasRoom := by
    unfold AbstractLedger.hasRoom
    rw [h.accounts]
  have hentry : l.registrationEntry request = l'.registrationEntry request := by
    unfold registrationEntry
    rw [h.epoch]
  have hregistered := h.registered request
  simp only [AbstractLedger.exec, hchecks, hroom, hentry, h.current_root, h.accounts,
    hregistered.current_root]
  split
  · exact ⟨.same _, h⟩
  split
  · exact ⟨.same _, hregistered⟩
  · exact ⟨.same _, h⟩

theorem exec_upsertAccount (h : Alike l l') (entry : PrivateAccountEntry) :
    SameButRootText (l.exec (.upsertAccount entry)).1 (l'.exec (.upsertAccount entry)).1 ∧
      Alike (l.exec (.upsertAccount entry)).2 (l'.exec (.upsertAccount entry)).2 := by
  have hids : l.ids = l'.ids := by
    unfold AbstractLedger.ids
    rw [h.accounts]
  have hroom : l.hasRoom = l'.hasRoom := by
    unfold AbstractLedger.hasRoom
    rw [h.accounts]
  simp only [AbstractLedger.exec, hids, hroom]
  split
  · exact ⟨.same _, h⟩
  split
  · exact ⟨.same _, h.replaceEntry entry⟩
  split
  · exact ⟨.same _, h.openAccount entry⟩
  · exact ⟨.same _, h⟩

theorem exec_mint (h : Alike l l') (t : PublicToPrivateMint) :
    SameButRootText (l.exec (.mint t)).1 (l'.exec (.mint t)).1 ∧
      Alike (l.exec (.mint t)).2 (l'.exec (.mint t)).2 := by
  have hminted := h.minted t
  simp only [AbstractLedger.exec, ← h.current_root, ← hminted.current_root, ← hminted.balance]
  rcases h.mintStatus t with hsame | ⟨hrefused, hrefused'⟩
  · rw [← hsame]
    cases hok : (firstFailure (l.mintChecks t)).ok with
    | false =>
      simp only [Bool.not_false, if_true]
      exact ⟨.same _, h⟩
    | true =>
      simp only [Bool.not_true, Bool.false_eq_true, if_false]
      exact ⟨.same _, hminted⟩
  · simp only [hrefused.1, hrefused'.1, Bool.not_false, if_true]
    exact ⟨.mint hrefused hrefused', h⟩

theorem exec_transfer (h : Alike l l') (t : PrivateTransfer) :
    SameButRootText (l.exec (.transfer t)).1 (l'.exec (.transfer t)).1 ∧
      Alike (l.exec (.transfer t)).2 (l'.exec (.transfer t)).2 := by
  have htransferred := h.transferred t
  simp only [AbstractLedger.exec, ← h.current_root, ← h.balance, ← htransferred.current_root,
    ← htransferred.balance]
  rcases h.transferStatus t with hsame | ⟨hrefused, hrefused'⟩
  · rw [← hsame]
    cases hok : (firstFailure (l.transferChecks t)).ok with
    | false =>
      simp only [Bool.not_false, if_true]
      exact ⟨.same _, h⟩
    | true =>
      simp only [Bool.not_true, Bool.false_eq_true, if_false]
      by_cases hover : l.balance t.sender_index < t.value
      · simp only [if_pos hover]
        exact ⟨.same _, h⟩
      · simp only [if_neg hover]
        exact ⟨.same _, htransferred⟩
  · simp only [hrefused.1, hrefused'.1, Bool.not_false, if_true]
    exact ⟨.transfer hrefused hrefused', h⟩

theorem exec_advanceEpoch (h : Alike l l') :
    SameButRootText (l.exec .advanceEpoch).1 (l'.exec .advanceEpoch).1 ∧
      Alike (l.exec .advanceEpoch).2 (l'.exec .advanceEpoch).2 := by
  simp only [AbstractLedger.exec, ← h.epoch]
  split
  · exact ⟨.same _, h⟩
  · next hmax =>
    refine ⟨.same _, h.enter ?_⟩
    rw [Word.toNat_add_one hmax]
    exact Nat.le_succ _

theorem exec_advanceToEpoch (h : Alike l l') (epoch : EpochNumber) :
    SameButRootText (l.exec (.advanceToEpoch epoch)).1 (l'.exec (.advanceToEpoch epoch)).1 ∧
      Alike (l.exec (.advanceToEpoch epoch)).2 (l'.exec (.advanceToEpoch epoch)).2 := by
  simp only [AbstractLedger.exec, ← h.epoch]
  split
  · exact ⟨.same _, h⟩
  · exact ⟨.same _, h.advanceTo epoch⟩

/-- A call that does not go back is answered alike, but for the text. -/
theorem exec (h : Alike l l') {call : Call}
    (hforward : ∀ epoch, call = .set_current_epoch epoch → l.epoch ≤ epoch) :
    SameButRootText (l.exec call).1 (l'.exec call).1 ∧
      Alike (l.exec call).2 (l'.exec call).2 := by
  cases call with
  | register request => exact h.exec_register request
  | upsertAccount entry => exact h.exec_upsertAccount entry
  | mint t => exact h.exec_mint t
  | transfer t => exact h.exec_transfer t
  | advanceEpoch => exact h.exec_advanceEpoch
  | advanceToEpoch epoch => exact h.exec_advanceToEpoch epoch
  | set_current_epoch epoch =>
    have hle := hforward epoch rfl
    simp only [AbstractLedger.exec, ← h.epoch, if_neg (UInt64.not_lt.mpr hle)]
    exact ⟨.same _, h.advanceTo epoch⟩

end Alike

/-! ### Ledgers that have not gone back -/

/-- No root is from a later epoch than the current one. -/
def Settled (l : AbstractLedger) : Prop := ∀ root ∈ l.roots, root.epoch.toNat ≤ l.epoch.toNat

namespace Settled

variable {l : AbstractLedger}

theorem of_issued {k : AbstractLedger} (h : Settled l) (hk : k.issued = l.issued) : Settled k := by
  obtain ⟨_, issued, started, _, _⟩ := k
  cases hk
  exact h

theorem issue (h : Settled l) {epoch : EpochNumber} (hle : l.epoch.toNat ≤ epoch.toNat) :
    Settled (l.issue epoch) := by
  intro root hroot
  rw [issue_roots, List.mem_append, List.mem_singleton] at hroot
  rw [issue_epoch]
  rcases hroot with hroot | hroot
  · exact (h root hroot).trans hle
  · rw [hroot]
    exact Nat.le_refl _

theorem enter (h : Settled l) {epoch : EpochNumber} (hle : l.epoch.toNat ≤ epoch.toNat) :
    Settled (l.enter epoch) :=
  (h.of_issued (k := { l with spent := [], once := List.nodup_nil }) rfl).issue hle

theorem advanceBy (h : Settled l) {n : Nat} (hroom : l.epoch.toNat + n < 2 ^ 64) :
    Settled (l.advanceBy n) := by
  induction n with
  | zero => exact h
  | succ n ih =>
    have hstep := advanceBy_epoch hroom
    have hn := advanceBy_epoch (l := l) (n := n) (by omega)
    rw [AbstractLedger.advanceBy] at hstep ⊢
    rw [enter_epoch] at hstep
    exact (ih (by omega)).enter (by omega)

theorem advanceTo (h : Settled l) (epoch : EpochNumber) : Settled (l.advanceTo epoch) := by
  have hlt := epoch.toNat_lt
  have hcurrent := l.epoch.toNat_lt
  exact h.advanceBy (by omega)

theorem exec (h : Settled l) {call : Call}
    (hforward : ∀ epoch, call = .set_current_epoch epoch → l.epoch ≤ epoch) :
    Settled (l.exec call).2 := by
  have hopened : ∀ entry, Settled (l.openAccount entry) :=
    fun entry => h.of_issued (openAccount_issued l entry)
  have hspent : ∀ prf, Settled (l.spend prf) := fun prf => h.of_issued (spend_issued l prf)
  have houtcome := l.exec_outcome call
  generalize l.exec call = result at houtcome ⊢
  cases houtcome with
  | refused hrefused hroot => exact h
  | registered hpassed hroom haccepted hroot =>
    apply (hopened _).issue
    rw [openAccount_epoch]
  | replaced hid hknown => exact h.of_issued rfl
  | opened hid hfresh hroom => exact hopened _
  | @minted t reply hpassed haccepted hroot =>
    apply Settled.issue ((hspent t.prf_output).of_issued rfl)
    show (l.spend _).epoch.toNat ≤ _
    rw [spend_epoch]
  | @transferred t reply hpassed hcovered haccepted hroot =>
    apply Settled.issue ((hspent t.prf_output).of_issued rfl)
    show (l.spend _).epoch.toNat ≤ _
    rw [spend_epoch]
  | stepped hmax =>
    apply h.enter
    rw [Word.toNat_add_one hmax]
    exact Nat.le_succ _
  | advanced hcall hle hroot => exact h.advanceTo _
  | @wentBack epoch hback => exact absurd (hforward epoch rfl) (UInt64.not_le.mpr hback)

end Settled

end AbstractLedger

namespace PlaintextModel

open AbstractLedger

/-! ### Answers -/

/-- The two models answer every public query alike. -/
structure SameAnswers (m m' : PlaintextModel) : Prop where
  hasAccount : ∀ id, m.hasAccount id = m'.hasAccount id
  findAccount : ∀ id, m.findAccount id = m'.findAccount id
  findAccountIndex : ∀ id, m.findAccountIndex id = m'.findAccountIndex id
  isValidAccountIndex : ∀ i, m.isValidAccountIndex i = m'.isValidAccountIndex i
  findAccountByIndex : ∀ i, m.findAccountByIndex i = m'.findAccountByIndex i
  inspectBalance : ∀ i, m.inspectBalance i = m'.inspectBalance i
  tryGetBalance : ∀ i out, m.tryGetBalance i out = m'.tryGetBalance i out
  account_count : m.account_count = m'.account_count
  current_root : m.current_root = m'.current_root
  current_root_reference : m.current_root_reference = m'.current_root_reference
  isValidRoot : ∀ root, m.isValidRoot root = m'.isValidRoot root
  hasSeenPrfOutput : ∀ prf,
    m.hasSeenPrfOutputInCurrentEpoch prf = m'.hasSeenPrfOutputInCurrentEpoch prf
  accepted_prf_outputs : m.accepted_prf_outputs = m'.accepted_prf_outputs
  current_root_versions : m.current_root_versions = m'.current_root_versions
  inspectEpochState : m.inspectEpochState = m'.inspectEpochState
  current_epoch : m.current_epoch = m'.current_epoch

variable {m m' : PlaintextModel} {l l' : AbstractLedger}

theorem sameAnswers_of_alike (h : Represents m l) (h' : Represents m' l') (halike : Alike l l') :
    SameAnswers m m' where
  hasAccount id := by rw [h.queries.hasAccount, h'.queries.hasAccount, halike.accounts]
  findAccount id := by rw [h.findAccount, h'.findAccount, halike.accounts]
  findAccountIndex id := by rw [h.findAccountIndex, h'.findAccountIndex, halike.accounts]
  isValidAccountIndex i := by rw [h.hasIndex, h'.hasIndex, halike.hasIndex]
  findAccountByIndex i := by
    rw [h.queries.findAccountByIndex, h'.queries.findAccountByIndex, halike.accounts]
  inspectBalance i := by
    rw [h.queries.inspectBalance, h'.queries.inspectBalance, halike.accounts]
  tryGetBalance i out := by rw [h.tryGetBalance, h'.tryGetBalance, halike.accounts]
  account_count := by
    apply UInt64.toNat.inj
    rw [h.queries.account_count, h'.queries.account_count, halike.accounts]
  current_root := by
    rw [h.queries.current_root, h'.queries.current_root, halike.current_root]
  current_root_reference := by
    rw [h.queries.current_root_reference, h'.queries.current_root_reference, halike.current_root]
  isValidRoot root := by
    unfold PlaintextModel.isValidRoot
    rw [h.rootStatus, h'.rootStatus, halike.root_ok root]
  hasSeenPrfOutput prf := by
    rw [h.queries.hasSeenPrfOutput, h'.queries.hasSeenPrfOutput, halike.spent]
  accepted_prf_outputs := by
    rw [h.queries.accepted_prf_outputs, h'.queries.accepted_prf_outputs, halike.spent]
  current_root_versions := by
    rw [h.current_root_versions, h'.current_root_versions, halike.epochRoots]
  inspectEpochState := by
    rw [h.queries.inspectEpochState, h'.queries.inspectEpochState, halike.current_root,
      halike.epoch, halike.spent]
  current_epoch := by rw [h.queries.current_epoch, h'.queries.current_epoch, halike.epoch]

/-- The accounts are shown one by one. -/
theorem records_of_answers (h : Represents m l) (h' : Represents m' l')
    (hsame : SameAnswers m m') : l.accounts.records = l'.accounts.records := by
  have hlength : l.accounts.records.length = l'.accounts.records.length := by
    rw [← h.queries.account_count, ← h'.queries.account_count, hsame.account_count]
  have hbound := m.account_states_.length_le
  rw [h.accounts] at hbound
  have hmax := maxSize_lt
  apply List.ext_getElem hlength
  intro k hk hk'
  have hindex : (UInt64.ofNat k).toNat = k := by
    rw [UInt64.toNat_ofNat']
    omega
  have hentry := hsame.findAccountByIndex { value := UInt64.ofNat k }
  have hbalance := hsame.inspectBalance { value := UInt64.ofNat k }
  rw [h.queries.findAccountByIndex, h'.queries.findAccountByIndex] at hentry
  rw [h.queries.inspectBalance, h'.queries.inspectBalance] at hbalance
  simp only [hindex, List.getElem?_eq_getElem hk, List.getElem?_eq_getElem hk', Option.map_some,
    Option.some.injEq] at hentry hbalance
  -- entry and balance are all there is to an account
  cases hstate : l.accounts.records[k]
  cases hstate' : l'.accounts.records[k]
  rw [hstate, hstate'] at hentry hbalance
  rw [AccountState.mk.injEq]
  exact ⟨hentry, hbalance⟩

/-- Settled ledgers whose models answer alike differ in old roots only. -/
theorem alike_of_answers (h : Represents m l) (h' : Represents m' l') (hsettled : l.Settled)
    (hsettled' : l'.Settled) (hsame : SameAnswers m m') : Alike l l' := by
  have hepoch : l.epoch = l'.epoch := by
    rw [← h.queries.current_epoch, ← h'.queries.current_epoch, hsame.current_epoch]
  have hroot : l.current_root = l'.current_root := by
    rw [← h.queries.current_root_reference, ← h'.queries.current_root_reference,
      hsame.current_root_reference]
  refine ⟨Registry.ext (records_of_answers h h' hsame), ?_, hepoch, ?_, ?_, ?_⟩
  · rw [← h.queries.accepted_prf_outputs, ← h'.queries.accepted_prf_outputs,
      hsame.accepted_prf_outputs]
  · exact congrArg (fun root => root.version.value) hroot
  · intro root hnear
    have hvalid := hsame.isValidRoot root
    rw [h.isValidRoot, h'.isValidRoot] at hvalid
    by_cases hlate : l.epoch.toNat < root.epoch.toNat
    · -- neither ledger has a root of a later epoch
      have hnone : root ∉ l.roots := fun hmem => Nat.not_le.mpr hlate (hsettled root hmem)
      have hnone' : root ∉ l'.roots := by
        intro hmem
        rw [hepoch] at hlate
        exact Nat.not_le.mpr hlate (hsettled' root hmem)
      exact iff_of_false hnone hnone'
    · -- inside the window the two are asked for it
      have hin : l.inWindow root.epoch = true := by
        unfold AbstractLedger.inWindow
        apply decide_eq_true
        omega
      have hin' : l'.inWindow root.epoch = true := by
        unfold AbstractLedger.inWindow at hin ⊢
        rw [← hepoch]
        exact hin
      rw [hin, hin', Bool.and_true, Bool.and_true, decide_eq_decide] at hvalid
      exact hvalid
  · rw [← h.queries.current_root_versions, ← h'.queries.current_root_versions,
      hsame.current_root_versions]

/-! ### Runs -/

/-- The call does not ask for an earlier epoch. -/
def NotBack (m : PlaintextModel) (call : Call) : Prop :=
  ∀ epoch, call = .set_current_epoch epoch → m.current_epoch_ ≤ epoch

theorem settled_follows : Machine.Follows machine AbstractLedger.machine NotBack some
    (fun m l => Represents m l ∧ l.Settled) fun _ => Eq := by
  refine Machine.follows_of_total (f := id) ⟨create_represents, ?_⟩ ?_
  · intro root hroot
    have hfirst : root = rootFor 0 { value := 1 } := List.mem_singleton.mp hroot
    rw [hfirst]
    exact Nat.le_refl _
  · intro m l call hforward ⟨h, hsettled⟩
    obtain ⟨hreply, hnext⟩ := h.exec call
    refine ⟨hreply, hnext, hsettled.exec ?_⟩
    intro epoch hcall
    rw [← h.current_epoch]
    exact hforward epoch hcall

/-- Two models that represent ledgers alike go on alike. -/
theorem futures_follow (h : Represents m l) (h' : Represents m' l') (halike : Alike l l') :
    Machine.Follows (machine.startingAt m) (machine.startingAt m') NotBack some
      (fun p p' => ∃ k k', Represents p k ∧ Represents p' k' ∧ Alike k k')
      fun _ => SameButRootText := by
  refine Machine.follows_of_total (f := id) ⟨l, l', h, h', halike⟩ ?_
  intro p p' call hforward ⟨k, k', hk, hk', hkk'⟩
  obtain ⟨hreply, hnext⟩ := hk.exec call
  obtain ⟨hreply', hnext'⟩ := hk'.exec call
  have hnotBack : ∀ epoch, call = .set_current_epoch epoch → k.epoch ≤ epoch := by
    intro epoch hcall
    rw [← hk.current_epoch]
    exact hforward epoch hcall
  have hstep := hkk'.exec hnotBack
  refine ⟨?_, _, _, hnext, hnext', hstep.2⟩
  show SameButRootText (p.exec call).1 (p'.exec call).1
  rw [hreply, hreply']
  exact hstep.1

/-- **Queries decide the future.** After two runs that never go back and at
    whose ends all queries are answered alike, every further run that does
    not go back is answered alike, up to the text with which a root is
    refused, and at its end all queries are answered alike again. -/
theorem queries_decide_future (calls calls' later : List Call)
    (hforward : machine.Along (fun _ m call => NotBack m call) calls)
    (hforward' : machine.Along (fun _ m call => NotBack m call) calls')
    (hsame : SameAnswers (machine.final calls) (machine.final calls'))
    (hlater : (machine.startingAt (machine.final calls)).Along
      (fun _ m call => NotBack m call) later) :
    List.Forall₂ SameButRootText
        (((machine.startingAt (machine.final calls)).events later).map (·.reply))
        (((machine.startingAt (machine.final calls')).events later).map (·.reply)) ∧
      SameAnswers (machine.final (calls ++ later)) (machine.final (calls' ++ later)) := by
  have hrun := settled_follows.final hforward
  have hrun' := settled_follows.final hforward'
  have halike := alike_of_answers hrun.1 hrun'.1 hrun.2 hrun'.2 hsame
  have hfollows := futures_follow hrun.1 hrun'.1 halike
  have hreplies := hfollows.replies hlater
  obtain ⟨k, k', hk, hk', hkk'⟩ := hfollows.final hlater
  rw [List.filterMap_some] at hreplies hk'
  refine ⟨by simpa using hreplies, ?_⟩
  rw [machine.final_append, machine.final_append]
  exact sameAnswers_of_alike hk hk' hkk'

/-- Without `set_current_epoch` no call goes back. -/
theorem along_notBack (M : Machine PlaintextModel Call Reply) {calls : List Call}
    (h : ∀ call ∈ calls, ∀ epoch, call ≠ .set_current_epoch epoch) :
    M.Along (fun _ m call => NotBack m call) calls := by
  intro pre call post hcalls epoch hcall
  have hmem : call ∈ calls := by simp [hcalls]
  exact absurd hcall (h call hmem epoch)

/-- Registering before the first of three steps or after it leaves different
    roots of the epochs `0` and `1`, which nobody sees in epoch `3`. -/
theorem queries_decide_future_three_steps :
    let alice : Call := .register { account_id := StdString.ofAscii "alice", public_key := {} }
    let calls : List Call := [alice, .advanceEpoch, .advanceEpoch, .advanceEpoch]
    let calls' : List Call := [.advanceEpoch, alice, .advanceEpoch, .advanceEpoch]
    SameAnswers (machine.final calls) (machine.final calls') ∧
      SameAnswers (machine.final (calls ++ [.advanceEpoch]))
        (machine.final (calls' ++ [.advanceEpoch])) := by
  intro alice calls calls'
  have hnear : (AbstractLedger.machine.final calls).roots.filter (2 ≤ ·.epoch.toNat) =
      (AbstractLedger.machine.final calls').roots.filter (2 ≤ ·.epoch.toNat) := by
    decide +kernel
  have hepoch : (AbstractLedger.machine.final calls).epoch = 3 := by decide +kernel
  have halike : Alike (AbstractLedger.machine.final calls)
      (AbstractLedger.machine.final calls') := by
    refine ⟨Registry.ext (by decide +kernel), by decide +kernel, by decide +kernel,
      by decide +kernel, ?_, by decide +kernel⟩
    intro root hroot
    have hmem := congrArg (root ∈ ·) hnear
    rw [hepoch, show (3 : EpochNumber).toNat = 3 from rfl] at hroot
    have htwo : 2 ≤ root.epoch.toNat := by omega
    simpa [List.mem_filter, htwo] using hmem
  have hsame := sameAnswers_of_alike (run_represents calls) (run_represents calls') halike
  refine ⟨hsame, (queries_decide_future calls calls' [.advanceEpoch] ?_ ?_ hsame ?_).2⟩
  · exact along_notBack _ (by simp [calls, alice])
  · exact along_notBack _ (by simp [calls', alice])
  · exact along_notBack _ (by simp)

end PlaintextModel

end Prifhete
