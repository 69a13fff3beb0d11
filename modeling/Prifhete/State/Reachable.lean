import Prifhete.Lib.Plans
import Prifhete.State.Pending
import Mathlib.Data.Fintype.EquivFin

/-! # Which states can be reached

    The invariants of the accounts and of the PRF outputs leave nothing out.
    From any state a client can lead the model to every account vector whose
    ids continue those that are there, with any entries and any balances, in
    any epoch, and with any log of PRF outputs, as long as no id is empty or
    used twice, no PRF output is used twice, and there is an account if
    there is a PRF output. The accounts have to fit into their vector, and
    the log is taken to have room. The plan goes in five stages: it opens the
    accounts, mints what is missing, moves to the epoch, spends the PRF
    outputs in mints of nothing, and replaces the entries.
-/

namespace Prifhete

open PlaintextModel AbstractLedger Sequences

/-- The account vectors and PRF logs in question. The log is a list, whose
    room is taken for granted. -/
structure Sound (states : List AccountState) (spent : List PRFOutput) : Prop where
  ids : ∀ state ∈ states, idOf state ≠ []
  distinct : (states.map idOf).Nodup
  room : states.length ≤ maxSize
  once : (spent.map (·.bytes)).Nodup
  recipients : spent ≠ [] → states ≠ []

namespace AbstractLedger

variable (l : AbstractLedger)

/-! ### The ids and the balances of a ledger -/

@[simp] theorem issue_ids (epoch : EpochNumber) : (l.issue epoch).ids = l.ids := by
  rw [ids, issue, Registry.keys_map, ids]

@[simp] theorem enter_ids (epoch : EpochNumber) : (l.enter epoch).ids = l.ids := by
  rw [enter, issue_ids]
  rfl

@[simp] theorem post_ids (i : AccountIndex) (f : UInt64 → UInt64) : (l.post i f).ids = l.ids := by
  rw [ids, Registry.keys, post_records]
  exact Registry.map_key_modify fun _ => rfl

@[simp] theorem replaceEntry_ids (entry : PrivateAccountEntry) :
    (l.replaceEntry entry).ids = l.ids := by
  rw [ids, replaceEntry, Registry.keys_map, ids]

@[simp] theorem spend_ids (prf : PRFOutput) : (l.spend prf).ids = l.ids := by
  rw [ids, spend_accounts, ids]

variable {l}

theorem openAccount_ids {entry : PrivateAccountEntry} (hfresh : entry.account_id ∉ l.ids) :
    (l.openAccount entry).ids = l.ids ++ [entry.account_id] := by
  rw [ids, Registry.keys, openAccount_records, if_pos hfresh, List.map_append]
  rfl

theorem length_ids (l : AbstractLedger) : l.ids.length = l.accounts.records.length :=
  List.length_map _

theorem getElem?_ids (l : AbstractLedger) (k : Nat) :
    l.ids[k]? = (l.accounts.records[k]?).map idOf := List.getElem?_map

theorem ids_of_hasIndex {i : AccountIndex} (h : l.hasIndex i = true) : l.ids ≠ [] := by
  have hlt : i.value.toNat < l.accounts.records.length := of_decide_eq_true h
  rw [← length_ids] at hlt
  exact List.ne_nil_of_length_pos (Nat.zero_lt_of_lt hlt)

theorem hasIndex_iff_ids {i : AccountIndex} :
    l.hasIndex i = true ↔ i.value.toNat < l.ids.length := by
  rw [hasIndex, decide_eq_true_eq, length_ids]

theorem enter_balance (l : AbstractLedger) (epoch : EpochNumber) :
    (l.enter epoch).balance = l.balance := issue_balance _ _

theorem replaceEntry_balance (l : AbstractLedger) (entry : PrivateAccountEntry) :
    (l.replaceEntry entry).balance = l.balance := by
  funext i
  unfold balance
  rw [replaceEntry_records, List.getElem?_map, Option.map_map]
  congr 2
  funext state
  simp only [Function.comp]
  split
  · rfl
  · rfl

/-- A new account has nothing, as little as none. -/
theorem openAccount_balance (l : AbstractLedger) (entry : PrivateAccountEntry) :
    (l.openAccount entry).balance = l.balance := by
  funext i
  unfold balance
  rw [openAccount_records]
  split
  · rcases Nat.lt_trichotomy i.value.toNat l.accounts.records.length with hlt | heq | hgt
    · rw [List.getElem?_append_left hlt]
    · rw [heq, List.getElem?_concat_length, List.getElem?_eq_none (Nat.le_refl _)]
      rfl
    · rw [List.getElem?_eq_none (by simpa using Nat.succ_le_of_lt hgt),
        List.getElem?_eq_none (Nat.le_of_lt hgt)]
  · rfl

/-- What stepping through epochs leaves alone, and what it clears. -/
theorem advanceBy_keeps (l : AbstractLedger) (n : Nat) :
    (l.advanceBy n).ids = l.ids ∧ (l.advanceBy n).balance = l.balance ∧
      (0 < n → (l.advanceBy n).spent = []) := by
  induction n with
  | zero => exact ⟨rfl, rfl, fun h => absurd h (Nat.lt_irrefl 0)⟩
  | succ n ih =>
    rw [advanceBy, enter_ids, enter_balance]
    exact ⟨ih.1, ih.2.1, fun _ => rfl⟩

/-! ### What every ledger of a run satisfies -/

/-- No id is empty, and there are no PRF outputs without an account. -/
def Sane (l : AbstractLedger) : Prop :=
  (∀ id ∈ l.ids, id ≠ []) ∧ (l.spent ≠ [] → l.ids ≠ [])

theorem opened_sane : Sane opened := by
  constructor
  · intro id hmem
    contradiction
  · intro hsome
    exact absurd rfl hsome

theorem Sane.opened (h : Sane l) {entry : PrivateAccountEntry} (hid : entry.account_id ≠ [])
    (hfresh : entry.account_id ∉ l.ids) : Sane (l.openAccount entry) := by
  unfold Sane
  rw [openAccount_ids hfresh]
  constructor
  · intro id hmem
    rcases List.mem_append.mp hmem with hold | hnew
    · exact h.1 id hold
    · rw [List.mem_singleton.mp hnew]
      exact hid
  · intro _
    simp

theorem Sane.advancedTo (h : Sane l) (epoch : EpochNumber) : Sane (l.advanceTo epoch) := by
  unfold advanceTo
  obtain ⟨hids, _, hspent⟩ := l.advanceBy_keeps (epoch.toNat - l.epoch.toNat)
  cases hn : epoch.toNat - l.epoch.toNat with
  | zero => exact h
  | succ n =>
    rw [hn] at hids hspent
    unfold Sane
    rw [hids, hspent (Nat.succ_pos n)]
    exact ⟨h.1, fun hnone => absurd rfl hnone⟩

theorem Sane.entered (h : Sane l) (epoch : EpochNumber) : Sane (l.enter epoch) := by
  unfold Sane
  rw [enter_ids]
  exact ⟨h.1, fun hnone => absurd rfl hnone⟩

theorem Sane.exec (h : Sane l) (call : Call) : Sane (l.exec call).2 := by
  have houtcome := l.exec_outcome call
  generalize l.exec call = result at houtcome ⊢
  cases houtcome with
  | refused hrefused hroot => exact h
  | @registered request reply hpassed hroom haccepted hroot =>
    obtain ⟨hid, hfresh⟩ := registerChecks_ok.mp hpassed
    have hopened : Sane (l.openAccount (l.registrationEntry request)) := h.opened hid hfresh
    unfold Sane registered
    rw [issue_ids]
    exact hopened
  | replaced hid hknown =>
    unfold Sane
    rw [replaceEntry_ids]
    exact h
  | opened hid hfresh hroom => exact h.opened hid hfresh
  | minted hpassed haccepted hroot =>
    obtain ⟨_, hindex, _, _⟩ := mintChecks_ok.mp hpassed
    unfold Sane minted
    rw [issue_ids, post_ids, spend_ids]
    exact ⟨h.1, fun _ => ids_of_hasIndex hindex⟩
  | transferred hpassed hcovered haccepted hroot =>
    obtain ⟨_, hindex, _, _, _⟩ := transferChecks_ok.mp hpassed
    unfold Sane transferred
    rw [issue_ids, post_ids, post_ids, spend_ids]
    exact ⟨h.1, fun _ => ids_of_hasIndex hindex⟩
  | stepped hmax => exact h.entered _
  | advanced hcall hle hroot => exact h.advancedTo _
  | wentBack hback => exact h.entered _

/-! ### The stages of the plan -/

variable {states : List AccountState}

/-- The index of the account at a position. -/
def indexAt (k : Nat) : AccountIndex := { value := UInt64.ofNat k }

theorem indexAt_toNat {k : Nat} (hk : k < maxSize) : (indexAt k).value.toNat = k := by
  have hmax := maxSize_lt
  rw [indexAt, UInt64.toNat_ofNat']
  omega

/-- Accounts with the same entries and the same balances are the same. -/
theorem records_eq_of {l' : AbstractLedger} (hbound : l.accounts.records.length ≤ maxSize)
    (hentries : l'.accounts.records.map (·.entry) = l.accounts.records.map (·.entry))
    (hbalance : ∀ i, l.hasIndex i = true → l'.balance i = l.balance i) :
    l'.accounts.records = l.accounts.records := by
  have hlength : l'.accounts.records.length = l.accounts.records.length := by
    have hlen := congrArg List.length hentries
    rwa [List.length_map, List.length_map] at hlen
  apply List.ext_getElem hlength
  intro k hk' hk
  have hentry : (l'.accounts.records[k]).entry = (l.accounts.records[k]).entry := by
    have hget := congrArg (·[k]?) hentries
    simpa [List.getElem?_eq_getElem hk', List.getElem?_eq_getElem hk] using hget
  have hindex : (indexAt k).value.toNat = k := indexAt_toNat (Nat.lt_of_lt_of_le hk hbound)
  have hvalue := hbalance (indexAt k) (decide_eq_true (by rw [hindex]; exact hk))
  rw [balance, balance, hindex, List.getElem?_eq_getElem hk', List.getElem?_eq_getElem hk] at hvalue
  calc l'.accounts.records[k]
      = ⟨(l'.accounts.records[k]).entry, (l'.accounts.records[k]).balance⟩ := rfl
    _ = ⟨(l.accounts.records[k]).entry, (l.accounts.records[k]).balance⟩ := by
        rw [hentry, show (l'.accounts.records[k]).balance = _ from hvalue]
        rfl

/-- A mint that is accepted where it is submitted. -/
def mintNow (l : AbstractLedger) (k : Nat) (value : UInt64) (prf : PRFOutput) :
    PublicToPrivateMint where
  transaction_id := StdString.ofAscii "mint"
  recipient_index := indexAt k
  value := value
  prf_output := prf
  referenced_root := l.current_root

theorem exec_mintNow {k : Nat} (hindex : l.hasIndex (indexAt k) = true) (value : UInt64)
    {prf : PRFOutput} (hfresh : l.isFresh prf = true) :
    let l' := (l.exec (.mint (l.mintNow k value prf))).2
    After l (.mint (l.mintNow k value prf)) l' ∧ l'.ids = l.ids := by
  intro l'
  have hwindow : l.inWindow l.current_root.epoch = true := by
    rw [current_root, rootFor_epoch, inWindow]
    simp
  have hroot := rootChecks_ok.mpr ⟨l.current_root_mem, hwindow⟩
  have hid : StdString.ofAscii "mint" ≠ [] := by decide
  have hpassed : (firstFailure (l.mintChecks (l.mintNow k value prf))).ok = true :=
    mintChecks_ok.mpr ⟨hid, hindex, hroot, hfresh⟩
  have hexec : l' = l.minted (l.mintNow k value prf) := by
    show (l.exec _).2 = _
    simp only [AbstractLedger.exec]
    rw [hpassed]
    rfl
  rw [hexec]
  refine ⟨after_minted hindex hfresh, ?_⟩
  rw [minted, issue_ids, post_ids, spend_ids]

/-- The first stage opens the accounts that are missing. -/
theorem attains_ids (hs : ∀ state ∈ states, idOf state ≠ [])
    (hdistinct : (states.map idOf).Nodup) (hroom : states.length ≤ maxSize)
    (hids : l.ids <+: states.map idOf) :
    machine.Attains l fun t => t.ids = states.map idOf := by
  have hlength : l.ids.length ≤ states.length := by
    rw [← List.length_map (f := idOf)]
    exact hids.length_le
  have hall : machine.Attains l fun t => t.ids = (states.map idOf).take states.length := by
    refine Machine.Attains.rounds
      (P := fun k (t : AbstractLedger) => t.ids = (states.map idOf).take k)
      hlength (List.prefix_iff_eq_take.mp hids) ?_
    intro k t _ hk ht
    have hid : states[k].entry.account_id ≠ [] := hs _ (List.getElem_mem hk)
    have hget : (states.map idOf)[k]? = some states[k].entry.account_id := by
      rw [List.getElem?_map, List.getElem?_eq_getElem hk]
      rfl
    have hfresh : states[k].entry.account_id ∉ t.ids := by
      rw [ht]
      exact not_mem_take_of_nodup hdistinct hget
    have hlen : t.accounts.records.length = k := by
      rw [← length_ids, ht, List.length_take, List.length_map]
      omega
    have hopen : t.hasRoom = true := by
      rw [hasRoom, hlen, decide_eq_true_eq]
      omega
    apply Machine.Attains.call (.upsertAccount states[k].entry)
    rw [machine_exec, AbstractLedger.exec, if_neg hid, if_neg hfresh, if_pos hopen,
      openAccount_ids hfresh, ht, List.take_add_one, hget]
    rfl
  rwa [← List.length_map (f := idOf), List.take_length] at hall

/-- As far as the ids and the balances go, the ledger has come to `states`. -/
structure Funds (states : List AccountState) (l : AbstractLedger) : Prop where
  ids : l.ids = states.map idOf
  balances : ∀ k state, states[k]? = some state → l.balance (indexAt k) = state.balance

theorem hasIndex_of_ids (hids : l.ids = states.map idOf) (hroom : states.length ≤ maxSize)
    {k : Nat} (hk : k < states.length) : l.hasIndex (indexAt k) = true := by
  rw [hasIndex_iff_ids, indexAt_toNat (Nat.lt_of_lt_of_le hk hroom), hids, List.length_map]
  exact hk

/-- The account that is there has the id and the balance. -/
theorem Funds.record (h : Funds states l) (hroom : states.length ≤ maxSize) {k : Nat}
    {state : AccountState} (hstate : states[k]? = some state) :
    ∃ record, l.accounts.records[k]? = some record ∧ idOf record = idOf state ∧
      record.balance = state.balance := by
  have hid : l.ids[k]? = some (idOf state) := by
    rw [h.ids, List.getElem?_map, hstate, Option.map_some]
  rw [getElem?_ids, Option.map_eq_some_iff] at hid
  obtain ⟨record, hrecord, hsame⟩ := hid
  refine ⟨record, hrecord, hsame, ?_⟩
  have hk := (List.getElem?_eq_some_iff.mp hstate).1
  have hbalance := h.balances k state hstate
  rw [balance, indexAt_toNat (Nat.lt_of_lt_of_le hk hroom), hrecord] at hbalance
  exact hbalance

theorem exists_fresh (l : AbstractLedger) : ∃ prf, l.isFresh prf = true := by
  obtain ⟨bytes, hbytes⟩ := Infinite.exists_notMem_finset (l.spent.map (·.bytes)).toFinset
  refine ⟨{ bytes := bytes }, decide_eq_true ?_⟩
  rwa [List.mem_toFinset] at hbytes

/-- The second stage makes up what is missing on each account. -/
theorem attains_funds (hroom : states.length ≤ maxSize) (hids : l.ids = states.map idOf) :
    machine.Attains l (Funds states) := by
  have hall : machine.Attains l fun t => t.ids = states.map idOf ∧
      ∀ k < states.length, ∀ state, states[k]? = some state →
        t.balance (indexAt k) = state.balance := by
    refine Machine.Attains.rounds (P := fun n (t : AbstractLedger) => t.ids = states.map idOf ∧
      ∀ k < n, ∀ state, states[k]? = some state → t.balance (indexAt k) = state.balance)
      (Nat.zero_le _) ⟨hids, fun k hk => absurd hk (Nat.not_lt_zero k)⟩ ?_
    intro n t _ hn ht
    obtain ⟨htids, hdone⟩ := ht
    obtain ⟨prf, hfresh⟩ := t.exists_fresh
    let missing := states[n].balance - t.balance (indexAt n)
    obtain ⟨hafter, hids'⟩ := exec_mintNow (hasIndex_of_ids htids hroom hn) missing hfresh
    refine Machine.Attains.call (.mint (t.mintNow n missing prf)) ⟨hids'.trans htids, ?_⟩
    intro k hk state hstate
    rw [machine_exec, hafter.balance]
    show Function.update t.balance (indexAt n) (t.balance (indexAt n) + missing) (indexAt k) = _
    rcases Nat.lt_succ_iff_lt_or_eq.mp hk with hlt | heq
    · have hne : indexAt k ≠ indexAt n := by
        intro hsame
        have hval : (indexAt k).value.toNat = (indexAt n).value.toNat := by rw [hsame]
        rw [indexAt_toNat (by omega), indexAt_toNat (by omega)] at hval
        omega
      rw [Function.update_of_ne hne]
      exact hdone k hlt state hstate
    · rw [heq, Function.update_self]
      rw [heq, List.getElem?_eq_getElem hn] at hstate
      rw [← Option.some.inj hstate]
      show t.balance (indexAt n) + (states[n].balance - t.balance (indexAt n)) = _
      rw [UInt64.add_comm, UInt64.sub_add_cancel]
  apply hall.mono
  intro t ht
  refine ⟨ht.1, ?_⟩
  intro k state hstate
  exact ht.2 k (List.getElem?_eq_some_iff.mp hstate).1 state hstate

/-- Moving to another epoch, back or forth, touches no account and empties
    the log. -/
theorem exec_set_current_epoch {epoch : EpochNumber} (hother : l.epoch ≠ epoch) :
    let l' := (l.exec (.set_current_epoch epoch)).2
    l'.ids = l.ids ∧ l'.balance = l.balance ∧ l'.epoch = epoch ∧ l'.spent = [] := by
  intro l'
  by_cases hback : epoch < l.epoch
  · have hl' : l' = l.enter epoch := by simp only [l', AbstractLedger.exec, if_pos hback]
    rw [hl']
    exact ⟨enter_ids _ _, enter_balance _ _, enter_epoch _ _, rfl⟩
  · have hl' : l' = l.advanceBy (epoch.toNat - l.epoch.toNat) := by
      simp only [l', AbstractLedger.exec, if_neg hback, advanceTo]
    have hlt : l.epoch.toNat < epoch.toNat :=
      UInt64.lt_iff_toNat_lt.mp (UInt64.lt_of_le_of_ne (UInt64.not_lt.mp hback) hother)
    have hbound := epoch.toNat_lt
    obtain ⟨hids, hbalance, hspent⟩ := l.advanceBy_keeps (epoch.toNat - l.epoch.toNat)
    have hreach : (l.advanceBy (epoch.toNat - l.epoch.toNat)).epoch.toNat = _ :=
      advanceBy_epoch (by omega)
    rw [hl']
    refine ⟨hids, hbalance, ?_, hspent (by omega)⟩
    apply UInt64.toNat.inj
    rw [hreach]
    omega

theorem Funds.of_same (h : Funds states l) {l' : AbstractLedger} (hids : l'.ids = l.ids)
    (hbalance : l'.balance = l.balance) : Funds states l' := by
  refine ⟨hids.trans h.ids, ?_⟩
  rw [hbalance]
  exact h.balances

/-- The third stage moves to an epoch, with an empty log. -/
theorem attains_epoch (h : Funds states l) (epoch : EpochNumber) :
    machine.Attains l fun t => Funds states t ∧ t.epoch = epoch ∧ t.spent = [] := by
  have hmove : ∀ {t : AbstractLedger}, t.epoch ≠ epoch → Funds states t →
      machine.Attains t fun t => Funds states t ∧ t.epoch = epoch ∧ t.spent = [] := by
    intro t hother ht
    obtain ⟨hids, hbalance, hepoch, hspent⟩ := exec_set_current_epoch hother
    exact Machine.Attains.call (.set_current_epoch epoch)
      ⟨ht.of_same hids hbalance, hepoch, hspent⟩
  by_cases hthere : l.epoch = epoch
  · -- a detour over another epoch, so that the epoch does change
    have hnext : l.epoch ≠ epoch + 1 := by
      rw [hthere]
      exact (Word.add_one_ne_self _).symm
    obtain ⟨hids, hbalance, hepoch, _⟩ := exec_set_current_epoch hnext
    have haway : machine.Attains l fun t => Funds states t ∧ t.epoch = epoch + 1 :=
      Machine.Attains.call (.set_current_epoch (epoch + 1)) ⟨h.of_same hids hbalance, hepoch⟩
    apply haway.andThen
    intro t ht
    apply hmove ?_ ht.1
    rw [ht.2]
    exact Word.add_one_ne_self _
  · exact hmove hthere h

/-- The ledger has come to `states` and `spent` in the epoch, up to the
    entries. -/
structure Prepared (states : List AccountState) (epoch : EpochNumber) (spent : List PRFOutput)
    (l : AbstractLedger) : Prop where
  funds : Funds states l
  epoch : l.epoch = epoch
  spent : l.spent = spent

/-- The fourth stage spends the PRF outputs, in mints of nothing. -/
theorem attains_spent {spent : List PRFOutput} (hs : Sound states spent) {epoch : EpochNumber}
    (h : Prepared states epoch [] l) : machine.Attains l (Prepared states epoch spent) := by
  have hall : machine.Attains l (Prepared states epoch (spent.take spent.length)) := by
    refine Machine.Attains.rounds (P := fun n => Prepared states epoch (spent.take n))
      (Nat.zero_le _) h ?_
    intro n t _ hn ht
    have hpos : 0 < states.length :=
      List.length_pos_of_ne_nil (hs.recipients (List.ne_nil_of_length_pos (Nat.zero_lt_of_lt hn)))
    have hfresh : t.isFresh spent[n] = true := by
      rw [isFresh, decide_eq_true_eq, ht.spent, List.map_take]
      apply not_mem_take_of_nodup hs.once
      rw [List.getElem?_map, List.getElem?_eq_getElem hn]
      rfl
    obtain ⟨hafter, hids⟩ := exec_mintNow (hasIndex_of_ids ht.funds.ids hs.room hpos) 0 hfresh
    apply Machine.Attains.call (.mint (t.mintNow 0 0 spent[n]))
    refine ⟨⟨hids.trans ht.funds.ids, ?_⟩, hafter.epoch.trans ht.epoch, ?_⟩
    · rw [machine_exec, hafter.balance]
      show ∀ k state, _ →
        Function.update t.balance (indexAt 0) (t.balance (indexAt 0) + 0) _ = _
      rw [UInt64.add_zero, Function.update_eq_self]
      exact ht.funds.balances
    · rw [machine_exec, hafter.spent, ht.spent]
      exact List.take_concat_get' _ _ hn
  rwa [List.take_length] at hall

/-- The last stage replaces the entries. -/
theorem attains_entries {spent : List PRFOutput} (hs : Sound states spent) {epoch : EpochNumber}
    (h : Prepared states epoch spent l) :
    machine.Attains l fun t =>
      t.accounts.records = states ∧ t.epoch = epoch ∧ t.spent = spent := by
  have hall : machine.Attains l fun t => Prepared states epoch spent t ∧
      ∀ j < states.length, t.accounts.records[j]? = states[j]? := by
    refine Machine.Attains.rounds (P := fun n t => Prepared states epoch spent t ∧
      ∀ j < n, t.accounts.records[j]? = states[j]?) (Nat.zero_le _)
      ⟨h, fun j hj => absurd hj (Nat.not_lt_zero j)⟩ ?_
    intro n t _ hn ht
    obtain ⟨hsettled, hdone⟩ := ht
    have hid : states[n].entry.account_id ≠ [] := hs.ids _ (List.getElem_mem hn)
    have hknown : states[n].entry.account_id ∈ t.ids := by
      rw [hsettled.funds.ids]
      exact List.mem_map_of_mem (List.getElem_mem hn)
    apply Machine.Attains.call (.upsertAccount states[n].entry)
    rw [machine_exec, AbstractLedger.exec, if_neg hid, if_pos hknown]
    refine ⟨⟨⟨?_, ?_⟩, hsettled.epoch, hsettled.spent⟩, ?_⟩
    · rw [replaceEntry_ids, hsettled.funds.ids]
    · rw [replaceEntry_balance]
      exact hsettled.funds.balances
    · intro j hj
      rw [replaceEntry_records, List.getElem?_map]
      rcases Nat.lt_succ_iff_lt_or_eq.mp hj with hlt | heq
      · -- another account, which is in place already
        rw [hdone j hlt, List.getElem?_eq_getElem (Nat.lt_trans hlt hn), Option.map_some, if_neg]
        intro hsame
        have hget : (states.map idOf)[n]? = some (idOf states[n]) := by
          rw [List.getElem?_map, List.getElem?_eq_getElem hn, Option.map_some]
        apply not_mem_take_of_nodup hs.distinct hget
        apply List.mem_of_getElem? (i := j)
        rw [List.getElem?_take_of_lt hlt, List.getElem?_map,
          List.getElem?_eq_getElem (Nat.lt_trans hlt hn), Option.map_some]
        exact congrArg some hsame
      · rw [heq, List.getElem?_eq_getElem hn]
        obtain ⟨state, hstate, hsame, hbalance⟩ :=
          hsettled.funds.record hs.room (List.getElem?_eq_getElem hn)
        have hmatch : idOf state = states[n].entry.account_id := hsame
        rw [hstate, Option.map_some, if_pos hmatch, hbalance]
  apply hall.mono
  intro t ht
  obtain ⟨hsettled, hdone⟩ := ht
  refine ⟨?_, hsettled.epoch, hsettled.spent⟩
  have hlength : t.accounts.records.length = states.length := by
    rw [← length_ids, hsettled.funds.ids, List.length_map]
  apply List.ext_getElem?
  intro j
  by_cases hj : j < states.length
  · exact hdone j hj
  · rw [Nat.not_lt] at hj
    rw [List.getElem?_eq_none (hlength.trans_le hj), List.getElem?_eq_none hj]

end AbstractLedger

namespace PlaintextModel

/-- **What can still become of the model.** After any run, some continuation
    ends with a given account vector and PRF log in a given epoch exactly
    when the two are sound and the ids that are there keep their places. -/
theorem reachable_from_iff (calls : List Call) (states : List AccountState) (epoch : EpochNumber)
    (spent : List PRFOutput) :
    (∃ later, (machine.final (calls ++ later)).account_states_.toList = states ∧
        (machine.final (calls ++ later)).current_epoch = epoch ∧
        (machine.final (calls ++ later)).accepted_prf_outputs = spent) ↔
      Sound states spent ∧ (machine.final calls).ids <+: states.map idOf := by
  constructor
  · intro hreached
    obtain ⟨later, hstates, _, hspent⟩ := hreached
    have h := run_represents (calls ++ later)
    have hsane := AbstractLedger.machine.final_invariant Sane opened_sane (fun _ c hs => hs.exec c)
      (calls ++ later)
    have hids : states.map idOf = (AbstractLedger.machine.final (calls ++ later)).ids := by
      rw [← h.ids, PlaintextModel.ids, hstates]
      rfl
    have hlog : spent = (AbstractLedger.machine.final (calls ++ later)).spent := by
      rw [← h.spent.1]
      exact hspent.symm
    refine ⟨⟨?_, ?_, ?_, ?_, ?_⟩, ?_⟩
    · intro state hstate
      apply hsane.1
      rw [← hids]
      exact List.mem_map_of_mem hstate
    · rw [hids]
      exact (AbstractLedger.machine.final (calls ++ later)).accounts.distinct
    · rw [← hstates]
      exact (machine.final (calls ++ later)).account_states_.length_le
    · rw [hlog]
      exact (AbstractLedger.machine.final (calls ++ later)).once
    · intro hsome hnone
      rw [hlog] at hsome
      apply hsane.2 hsome
      rw [← hids, hnone, List.map_nil]
    · rw [hids, ← h.ids]
      exact ids_grow calls later
  · intro hsound
    obtain ⟨hs, hids⟩ := hsound
    have h := run_represents calls
    rw [h.ids] at hids
    have hplan : AbstractLedger.machine.Attains (AbstractLedger.machine.final calls) fun t =>
        t.accounts.records = states ∧ t.epoch = epoch ∧ t.spent = spent := by
      apply (attains_ids hs.ids hs.distinct hs.room hids).andThen
      intro t ht
      apply (attains_funds hs.room ht).andThen
      intro t ht
      apply (attains_epoch ht epoch).andThen
      intro t ht
      apply (attains_spent hs ⟨ht.1, ht.2.1, ht.2.2⟩).andThen
      intro t ht
      exact attains_entries hs ht
    have hattains := Machine.Attains.of_steps (M := machine) (N := AbstractLedger.machine)
      (fun c hrel => (hrel.exec c).2) h hplan
    obtain ⟨later, l', h', hrecords, hepoch, hspent⟩ := machine.attains_final.mp hattains
    refine ⟨later, h'.accounts.trans hrecords, h'.current_epoch.trans hepoch, ?_⟩
    exact h'.spent.1.trans hspent

end PlaintextModel

end Prifhete
