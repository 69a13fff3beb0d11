import Prifhete.State.Queries
import Prifhete.State.Reordering

/-! # Batches of transactions

    Mints and transfers that are submitted one after the other stay within
    an epoch, so whether all of them are accepted can be read off the state
    before the batch: each is well formed and references a root that is
    valid there or that the batch has issued before it, no PRF output is
    used twice, and the running balances cover the transfers. None of these
    conditions depends on the others.
-/

namespace Prifhete

open PlaintextModel AbstractLedger Sequences

namespace PlaintextModel

namespace Transaction

def transaction_id : Transaction → StdString
  | .mint t => t.transaction_id
  | .transfer t => t.transaction_id

def referenced_root : Transaction → RootReference
  | .mint t => t.referenced_root
  | .transfer t => t.referenced_root

/-- The accounts it names. -/
def indices : Transaction → List AccountIndex
  | .mint t => [t.recipient_index]
  | .transfer t => [t.sender_index, t.receiver_index]

/-- The balances suffice for it. -/
def Covered (balance : AccountIndex → UInt64) : Transaction → Prop
  | .mint _ => True
  | .transfer t => t.value ≤ balance t.sender_index

/-- The balances after it. -/
def settle (balance : AccountIndex → UInt64) : Transaction → AccountIndex → UInt64
  | .mint t =>
    Function.update balance t.recipient_index (balance t.recipient_index + t.value)
  | .transfer t =>
    let debited := Function.update balance t.sender_index (balance t.sender_index - t.value)
    Function.update debited t.receiver_index (debited t.receiver_index + t.value)

end Transaction

/-- Each transaction is covered by the balances that those before it leave. -/
def Funded : (AccountIndex → UInt64) → List Transaction → Prop
  | _, [] => True
  | balance, t :: ts => t.Covered balance ∧ Funded (t.settle balance) ts

/-- The root that is `k` issues away, if the epoch stays. -/
def rootAhead (m : PlaintextModel) (k : Nat) : RootReference :=
  rootFor m.current_epoch_ { value := m.root_version_.value + UInt64.ofNat k }

/-- What the state before a batch has to say about it. -/
structure BatchAcceptable (m : PlaintextModel) (ts : List Transaction) : Prop where
  ids : ∀ t ∈ ts, t.transaction_id ≠ []
  indices : ∀ t ∈ ts, ∀ i ∈ t.indices, m.isValidAccountIndex i = true
  roots : ∀ k t, ts[k]? = some t → m.isValidRoot t.referenced_root = true ∨
    ∃ j < k, t.referenced_root = m.rootAhead (j + 1)
  distinct : (ts.map (·.prf_output.bytes)).Nodup
  fresh : ∀ t ∈ ts, m.hasSeenPrfOutputInCurrentEpoch t.prf_output = false
  funded : Funded m.balanceRef ts

/-! ### One transaction -/

theorem hasSeen_eq_false {m : PlaintextModel} {prf : PRFOutput} :
    m.hasSeenPrfOutputInCurrentEpoch prf = false ↔
      toKey prf.bytes ∉ m.prf_outputs_in_current_epoch_ := decide_eq_false_iff_not

/-- The checks of either kind. -/
theorem accepted_iff {m : PlaintextModel} {t : Transaction} :
    (m.exec t.call).1.accepted = true ↔
      t.transaction_id ≠ [] ∧ (∀ i ∈ t.indices, m.isValidAccountIndex i = true) ∧
      m.isValidRoot t.referenced_root = true ∧
      m.hasSeenPrfOutputInCurrentEpoch t.prf_output = false ∧ t.Covered m.balanceRef := by
  cases t with
  | mint t =>
    show (m.mint t).1.status.ok = true ↔ _
    rw [mint_ok_iff, mintAdmissible_iff, hasSeen_eq_false]
    simp [Transaction.transaction_id, Transaction.indices, Transaction.referenced_root,
      Transaction.prf_output, Transaction.Covered, isValidRoot]
  | transfer t =>
    show (m.transfer t).1.status.ok = true ↔ _
    rw [transfer_ok_iff, transferAdmissible_iff, hasSeen_eq_false]
    simp [Transaction.transaction_id, Transaction.indices, Transaction.referenced_root,
      Transaction.prf_output, Transaction.Covered, isValidRoot, and_assoc]

end PlaintextModel

namespace AbstractLedger

variable {l : AbstractLedger}

/-! ### The ledger after a transaction -/

theorem issue_balance (l : AbstractLedger) (epoch : EpochNumber) :
    (l.issue epoch).balance = l.balance := by
  funext i
  unfold balance
  rw [issue_records, List.getElem?_map, Option.map_map]
  rfl

theorem spend_balance (l : AbstractLedger) (prf : PRFOutput) :
    (l.spend prf).balance = l.balance := by
  funext i
  unfold balance
  rw [spend_accounts]

theorem post_balance {i : AccountIndex} (hindex : l.hasIndex i = true) (f : UInt64 → UInt64) :
    (l.post i f).balance = Function.update l.balance i (f (l.balance i)) := by
  have hlt : i.value.toNat < l.accounts.records.length := of_decide_eq_true hindex
  funext j
  unfold balance
  rw [post_records, List.getElem?_modify]
  by_cases hj : j = i
  · rw [hj, Function.update_self, List.getElem?_eq_getElem hlt]
    simp
  · have hne : i.value.toNat ≠ j.value.toNat := by
      intro heq
      exact hj (AccountIndex.ext (UInt64.toNat.inj heq.symm))
    rw [Function.update_of_ne hj]
    simp [hne]

theorem issue_hasIndex (l : AbstractLedger) (epoch : EpochNumber) :
    (l.issue epoch).hasIndex = l.hasIndex := by
  funext j
  unfold hasIndex
  rw [issue_records, List.length_map]

theorem post_hasIndex (l : AbstractLedger) (i : AccountIndex) (f : UInt64 → UInt64) :
    (l.post i f).hasIndex = l.hasIndex := by
  funext j
  simp [hasIndex]

theorem spend_hasIndex (l : AbstractLedger) (prf : PRFOutput) :
    (l.spend prf).hasIndex = l.hasIndex := by
  funext j
  simp [hasIndex]

/-- The ledger after an accepted transaction, in the parts that decide about
    the next one. -/
structure After (l : AbstractLedger) (t : Transaction) (l' : AbstractLedger) : Prop where
  epoch : l'.epoch = l.epoch
  issued : l'.issued = l.issued ++ [l.epoch]
  spent : l'.spent = l.spent ++ [t.prf_output]
  hasIndex : l'.hasIndex = l.hasIndex
  balance : l'.balance = t.settle l.balance

theorem after_minted {t : PublicToPrivateMint} (hindex : l.hasIndex t.recipient_index = true)
    (hfresh : l.isFresh t.prf_output = true) : After l (.mint t) (l.minted t) := by
  have hspent : (l.spend t.prf_output).hasIndex t.recipient_index = true := by
    rw [spend_hasIndex, hindex]
  refine ⟨issue_epoch _ _, ?_, ?_, ?_, ?_⟩
  · show (l.spend t.prf_output).issued ++ _ = _
    rw [spend_issued]
  · show (l.spend t.prf_output).spent = _
    rw [spend_spent, if_pos hfresh]
    rfl
  · unfold minted
    rw [issue_hasIndex, post_hasIndex, spend_hasIndex]
  · unfold minted
    rw [issue_balance, post_balance hspent, spend_balance]
    rfl

theorem after_transferred {t : PrivateTransfer} (hsender : l.hasIndex t.sender_index = true)
    (hreceiver : l.hasIndex t.receiver_index = true) (hfresh : l.isFresh t.prf_output = true) :
    After l (.transfer t) (l.transferred t) := by
  have hspent : (l.spend t.prf_output).hasIndex t.sender_index = true := by
    rw [spend_hasIndex, hsender]
  have hdebited : ((l.spend t.prf_output).post t.sender_index (· - t.value)).hasIndex
      t.receiver_index = true := by
    rw [post_hasIndex, spend_hasIndex, hreceiver]
  refine ⟨issue_epoch _ _, ?_, ?_, ?_, ?_⟩
  · show (l.spend t.prf_output).issued ++ _ = _
    rw [spend_issued]
  · show (l.spend t.prf_output).spent = _
    rw [spend_spent, if_pos hfresh]
    rfl
  · unfold transferred
    rw [issue_hasIndex, post_hasIndex, post_hasIndex, spend_hasIndex]
  · unfold transferred
    rw [issue_balance, post_balance hdebited, post_balance hspent, spend_balance]
    rfl

end AbstractLedger

namespace PlaintextModel

/-! ### The state after a transaction -/

section AfterTransaction

variable {m : PlaintextModel} {l : AbstractLedger}

theorem Represents.isFresh_of_unseen (h : Represents m l) {prf : PRFOutput}
    (hunseen : m.hasSeenPrfOutputInCurrentEpoch prf = false) : l.isFresh prf = true := by
  have hfresh : (m.validateFreshPrfOutput prf).ok = true :=
    validateFreshPrfOutput_ok.mpr (hasSeen_eq_false.mp hunseen)
  rw [h.isFresh] at hfresh
  exact firstFailure_ok.mp hfresh _ (List.mem_singleton.mpr rfl)

/-- An accepted transaction leads to the ledger after it. -/
theorem Represents.after (h : Represents m l) {t : Transaction}
    (hok : (m.exec t.call).1.accepted = true) :
    ∃ l', Represents (m.exec t.call).2 l' ∧ After l t l' := by
  obtain ⟨_, hindices, _, hunseen, _⟩ := accepted_iff.mp hok
  have hfresh := h.isFresh_of_unseen hunseen
  cases t with
  | mint t =>
    have hadm : m.mintAdmissible t = true := mint_ok_iff.mp hok
    have hindex := hindices t.recipient_index (List.mem_singleton.mpr rfl)
    rw [h.hasIndex] at hindex
    refine ⟨l.minted t, ?_, after_minted hindex hfresh⟩
    show Represents (m.mint t).2 _
    rw [mint_of_admissible hadm]
    exact h.minted hadm hfresh
  | transfer t =>
    have hadm : m.transferAdmissible t = true := transfer_ok_iff.mp hok
    have hsender := hindices t.sender_index (by simp [Transaction.indices])
    have hreceiver := hindices t.receiver_index (by simp [Transaction.indices])
    rw [h.hasIndex] at hsender hreceiver
    refine ⟨l.transferred t, ?_, after_transferred hsender hreceiver hfresh⟩
    show Represents (m.transfer t).2 _
    rw [transfer_of_admissible hadm]
    exact h.transferred hadm hfresh

theorem Represents.rootAhead (h : Represents m l) (k : Nat) :
    m.rootAhead k = rootFor l.epoch { value := UInt64.ofNat (l.issued.length + k) } := by
  unfold PlaintextModel.rootAhead
  rw [h.current_epoch, (h.issued.fields l.started).2.1, UInt64.ofNat_add]

variable {m' : PlaintextModel} {l' : AbstractLedger} {t : Transaction}

theorem rootAhead_after (h : Represents m l) (h' : Represents m' l') (hafter : After l t l')
    (k : Nat) : m'.rootAhead k = m.rootAhead (k + 1) := by
  rw [h.rootAhead, h'.rootAhead, hafter.epoch, hafter.issued, List.length_append,
    List.length_singleton, Nat.add_assoc, Nat.add_comm 1 k]

/-- The roots that were valid stay so, and the new one joins them. -/
theorem isValidRoot_after (h : Represents m l) (h' : Represents m' l') (hafter : After l t l')
    (root : RootReference) :
    m'.isValidRoot root = true ↔ m.isValidRoot root = true ∨ root = m.rootAhead 1 := by
  have hroots : l'.roots = l.roots ++ [m.rootAhead 1] := by
    rw [h.rootAhead, roots, hafter.issued, rootsOf_concat]
    rfl
  have hwindow : l'.inWindow root.epoch = l.inWindow root.epoch := by
    unfold AbstractLedger.inWindow
    rw [hafter.epoch]
  rw [h.isValidRoot, h'.isValidRoot, hroots, hwindow, Bool.and_eq_true, Bool.and_eq_true,
    decide_eq_true_eq, decide_eq_true_eq, List.mem_append, List.mem_singleton]
  constructor
  · intro hknown
    obtain ⟨hmem, hin⟩ := hknown
    rcases hmem with hmem | hnew
    · exact Or.inl ⟨hmem, hin⟩
    · exact Or.inr hnew
  · intro hor
    rcases hor with ⟨hmem, hin⟩ | hnew
    · exact ⟨Or.inl hmem, hin⟩
    · refine ⟨Or.inr hnew, ?_⟩
      -- the new root is one of the current epoch
      rw [hnew, h.rootAhead]
      unfold AbstractLedger.inWindow
      simp

theorem unseen_after (h : Represents m l) (h' : Represents m' l') (hafter : After l t l')
    (prf : PRFOutput) :
    m'.hasSeenPrfOutputInCurrentEpoch prf = false ↔
      m.hasSeenPrfOutputInCurrentEpoch prf = false ∧ prf.bytes ≠ t.prf_output.bytes := by
  rw [hasSeen_eq_false, hasSeen_eq_false, h.spent.mem_seen, h'.spent.mem_seen, hafter.spent,
    List.map_append, List.mem_append, not_or, List.map_singleton, List.mem_singleton]

theorem isValidAccountIndex_after (h : Represents m l) (h' : Represents m' l')
    (hafter : After l t l') (i : AccountIndex) :
    m'.isValidAccountIndex i = m.isValidAccountIndex i := by
  rw [h.hasIndex, h'.hasIndex, hafter.hasIndex]

theorem balanceRef_after (h : Represents m l) (h' : Represents m' l') (hafter : After l t l') :
    m'.balanceRef = t.settle m.balanceRef := by
  have hm : m.balanceRef = l.balance := funext h.balance
  have hm' : m'.balanceRef = l'.balance := funext h'.balance
  rw [hm, hm', hafter.balance]

/-- What was issued within the batch is counted from one further back. -/
theorem roots_after (h : Represents m l) (h' : Represents m' l') (hafter : After l t l')
    (root : RootReference) (k : Nat) :
    (m'.isValidRoot root = true ∨ ∃ j < k, root = m'.rootAhead (j + 1)) ↔
      m.isValidRoot root = true ∨ ∃ j < k + 1, root = m.rootAhead (j + 1) := by
  rw [isValidRoot_after h h' hafter, or_assoc]
  apply or_congr_right
  constructor
  · intro hor
    rcases hor with hnew | ⟨j, hj, heq⟩
    · exact ⟨0, Nat.succ_pos k, hnew⟩
    · rw [rootAhead_after h h' hafter] at heq
      exact ⟨j + 1, Nat.succ_lt_succ hj, heq⟩
  · intro ⟨j, hj, heq⟩
    cases j with
    | zero => exact Or.inl heq
    | succ j =>
      rw [← rootAhead_after h h' hafter] at heq
      exact Or.inr ⟨j, Nat.lt_of_succ_lt_succ hj, heq⟩

end AfterTransaction

/-! ### A batch -/

/-- The first transaction of a batch, and the rest of it in the state that
    the first one leaves. -/
theorem batchAcceptable_cons {m : PlaintextModel} {l : AbstractLedger} (h : Represents m l)
    {t : Transaction} {ts : List Transaction} :
    BatchAcceptable m (t :: ts) ↔
      (m.exec t.call).1.accepted = true ∧ BatchAcceptable (m.exec t.call).2 ts := by
  constructor
  · intro hbatch
    have hok : (m.exec t.call).1.accepted = true := by
      refine accepted_iff.mpr ⟨hbatch.ids t List.mem_cons_self,
        hbatch.indices t List.mem_cons_self, ?_, hbatch.fresh t List.mem_cons_self,
        hbatch.funded.1⟩
      rcases hbatch.roots 0 t rfl with hvalid | ⟨j, hj, _⟩
      · exact hvalid
      · exact False.elim (Nat.not_lt_zero j hj)
    obtain ⟨l', h', hafter⟩ := h.after hok
    obtain ⟨hnew, hdistinct⟩ := List.nodup_cons.mp hbatch.distinct
    refine ⟨hok, ?_, ?_, ?_, hdistinct, ?_, ?_⟩
    · intro u hu
      exact hbatch.ids u (List.mem_cons_of_mem t hu)
    · intro u hu i hi
      rw [isValidAccountIndex_after h h' hafter]
      exact hbatch.indices u (List.mem_cons_of_mem t hu) i hi
    · intro k u hk
      exact (roots_after h h' hafter _ k).mpr (hbatch.roots (k + 1) u hk)
    · intro u hu
      refine (unseen_after h h' hafter _).mpr ⟨hbatch.fresh u (List.mem_cons_of_mem t hu), ?_⟩
      intro heq
      exact hnew (List.mem_map.mpr ⟨u, hu, heq⟩)
    · rw [balanceRef_after h h' hafter]
      exact hbatch.funded.2
  · intro ⟨hok, hbatch⟩
    obtain ⟨hid, hindices, hvalid, hunseen, hcovered⟩ := accepted_iff.mp hok
    obtain ⟨l', h', hafter⟩ := h.after hok
    have hfresh (u : Transaction) (hu : u ∈ ts) :=
      (unseen_after h h' hafter u.prf_output).mp (hbatch.fresh u hu)
    refine ⟨?_, ?_, ?_, List.nodup_cons.mpr ⟨?_, hbatch.distinct⟩, ?_, hcovered, ?_⟩
    · intro u hu
      rcases List.mem_cons.mp hu with rfl | hu
      · exact hid
      · exact hbatch.ids u hu
    · intro u hu i hi
      rcases List.mem_cons.mp hu with rfl | hu
      · exact hindices i hi
      · rw [← isValidAccountIndex_after h h' hafter]
        exact hbatch.indices u hu i hi
    · intro k u hk
      cases k with
      | zero =>
        obtain rfl : t = u := Option.some.inj hk
        exact Or.inl hvalid
      | succ k => exact (roots_after h h' hafter _ k).mp (hbatch.roots k u hk)
    · intro hmem
      obtain ⟨u, hu, heq⟩ := List.mem_map.mp hmem
      exact (hfresh u hu).2 heq
    · intro u hu
      rcases List.mem_cons.mp hu with rfl | hu
      · exact hunseen
      · exact (hfresh u hu).1
    · rw [← balanceRef_after h h' hafter]
      exact hbatch.funded

theorem acceptsAll_iff {m : PlaintextModel} {l : AbstractLedger} (h : Represents m l)
    (ts : List Transaction) : AcceptsAll m ts ↔ BatchAcceptable m ts := by
  induction ts generalizing m l with
  | nil =>
    refine iff_of_true trivial ⟨?_, ?_, ?_, List.nodup_nil, ?_, trivial⟩
    all_goals simp
  | cons t ts ih =>
    rw [batchAcceptable_cons h]
    apply and_congr_right
    intro hok
    obtain ⟨l', h', _⟩ := h.after hok
    exact ih h'

/-- A batch submitted at the end of a run is accepted as a whole exactly
    when the state before it says so. -/
theorem batch_accepted_iff (calls : List Call) (ts : List Transaction) :
    AcceptsAll (machine.final calls) ts ↔ BatchAcceptable (machine.final calls) ts :=
  acceptsAll_iff (run_represents calls) ts

/-! ### Choosing the PRF outputs -/

/-- The transaction with another PRF output. -/
def Transaction.withPrf (prf : PRFOutput) : Transaction → Transaction
  | .mint t => .mint { t with prf_output := prf }
  | .transfer t => .transfer { t with prf_output := prf }

@[simp] theorem withPrf_prf_output (prf : PRFOutput) (t : Transaction) :
    (t.withPrf prf).prf_output = prf := by
  cases t <;> rfl

@[simp] theorem withPrf_withPrf (prf prf' : PRFOutput) (t : Transaction) :
    (t.withPrf prf).withPrf prf' = t.withPrf prf' := by
  cases t <;> rfl

/-- The conditions on a batch that do not concern its PRF outputs. -/
structure BatchPayable (m : PlaintextModel) (ts : List Transaction) : Prop where
  ids : ∀ t ∈ ts, t.transaction_id ≠ []
  indices : ∀ t ∈ ts, ∀ i ∈ t.indices, m.isValidAccountIndex i = true
  roots : ∀ k t, ts[k]? = some t → m.isValidRoot t.referenced_root = true ∨
    ∃ j < k, t.referenced_root = m.rootAhead (j + 1)
  funded : Funded m.balanceRef ts

theorem batchAcceptable_iff {m : PlaintextModel} {ts : List Transaction} :
    BatchAcceptable m ts ↔ BatchPayable m ts ∧ (ts.map (·.prf_output.bytes)).Nodup ∧
      ∀ t ∈ ts, m.hasSeenPrfOutputInCurrentEpoch t.prf_output = false := by
  constructor
  · intro h
    exact ⟨⟨h.ids, h.indices, h.roots, h.funded⟩, h.distinct, h.fresh⟩
  · intro ⟨h, hdistinct, hfresh⟩
    exact ⟨h.ids, h.indices, h.roots, hdistinct, hfresh, h.funded⟩

theorem funded_withPrf (prf : PRFOutput) (balance : AccountIndex → UInt64)
    (ts : List Transaction) : Funded balance (ts.map (·.withPrf prf)) ↔ Funded balance ts := by
  induction ts generalizing balance with
  | nil => exact Iff.rfl
  | cons t ts ih =>
    cases t with
    | mint t => exact and_congr_right fun _ => ih _
    | transfer t => exact and_congr_right fun _ => ih _

/-- Payable is what it is under any PRF outputs. -/
theorem batchPayable_withPrf {m : PlaintextModel} (prf : PRFOutput) {ts : List Transaction} :
    BatchPayable m (ts.map (·.withPrf prf)) ↔ BatchPayable m ts := by
  have hid : ∀ t : Transaction, (t.withPrf prf).transaction_id = t.transaction_id := by
    intro t
    cases t <;> rfl
  have hindices : ∀ t : Transaction, (t.withPrf prf).indices = t.indices := by
    intro t
    cases t <;> rfl
  have hroot : ∀ t : Transaction, (t.withPrf prf).referenced_root = t.referenced_root := by
    intro t
    cases t <;> rfl
  constructor
  · intro h
    refine ⟨?_, ?_, ?_, (funded_withPrf prf _ ts).mp h.funded⟩
    · intro t ht
      rw [← hid]
      exact h.ids _ (List.mem_map_of_mem ht)
    · intro t ht
      rw [← hindices]
      exact h.indices _ (List.mem_map_of_mem ht)
    · intro k t hk
      rw [← hroot]
      exact h.roots k _ (by rw [List.getElem?_map, hk, Option.map_some])
  · intro h
    refine ⟨?_, ?_, ?_, (funded_withPrf prf _ ts).mpr h.funded⟩
    · refine List.forall_mem_map.mpr fun t ht => ?_
      rw [hid]
      exact h.ids t ht
    · refine List.forall_mem_map.mpr fun t ht => ?_
      rw [hindices]
      exact h.indices t ht
    · intro k u hk
      rw [List.getElem?_map, Option.map_eq_some_iff] at hk
      obtain ⟨t, ht, hu⟩ := hk
      rw [← hu, hroot]
      exact h.roots k t ht

/-- There are always PRF outputs that the model has not seen, as many as
    are needed. -/
theorem exists_unseen (m : PlaintextModel) :
    ∃ fresh : Nat → PRFOutput, Function.Injective (fun k => (fresh k).bytes) ∧
      ∀ k, m.hasSeenPrfOutputInCurrentEpoch (fresh k) = false := by
  -- zero bytes, more of them than any key of the set has
  let longest := m.prf_outputs_in_current_epoch_.sup List.length
  refine ⟨fun k => { bytes := List.replicate (longest + 1 + k) 0 }, ?_, ?_⟩
  · intro j k hjk
    have hlen : (List.replicate (longest + 1 + j) (0 : UInt8)).length =
        (List.replicate (longest + 1 + k) (0 : UInt8)).length := congrArg List.length hjk
    simpa using hlen
  · intro k
    rw [hasSeen_eq_false]
    intro hmem
    have hle : (toKey (List.replicate (longest + 1 + k) 0)).length ≤ longest :=
      Finset.le_sup (f := List.length) hmem
    have hkey : (toKey (List.replicate (longest + 1 + k) 0)).length = longest + 1 + k := by
      simp [toKey]
    omega

/-- For some choice of its PRF outputs a batch is accepted as a whole, as
    long as the rest of it can be. -/
theorem some_batch_accepted_iff (calls : List Call) (ts : List Transaction) :
    (∃ ts', ts'.map (·.withPrf {}) = ts.map (·.withPrf {}) ∧
        AcceptsAll (machine.final calls) ts') ↔
      BatchPayable (machine.final calls) ts := by
  constructor
  · intro ⟨ts', hsame, haccepts⟩
    have hpayable :=
      (batchAcceptable_iff.mp ((acceptsAll_iff (run_represents calls) ts').mp haccepts)).1
    rw [← batchPayable_withPrf {}, hsame] at hpayable
    exact (batchPayable_withPrf {}).mp hpayable
  · intro hpayable
    obtain ⟨fresh, hinj, hunseen⟩ := exists_unseen (machine.final calls)
    let ts' := ts.zipIdx.map fun p => p.1.withPrf (fresh p.2)
    have hsame : ts'.map (·.withPrf {}) = ts.map (·.withPrf {}) := by
      have hstrip : ts'.map (·.withPrf {}) = (ts.zipIdx.map Prod.fst).map (·.withPrf {}) := by
        rw [List.map_map, List.map_map]
        exact List.map_congr_left fun p _ => withPrf_withPrf _ _ _
      rw [hstrip, List.zipIdx_map_fst]
    have hbytes : ts'.map (·.prf_output.bytes) =
        (ts.zipIdx.map Prod.snd).map fun k => (fresh k).bytes := by
      rw [List.map_map, List.map_map]
      exact List.map_congr_left fun p _ => congrArg PRFOutput.bytes (withPrf_prf_output _ _)
    refine ⟨ts', hsame, ?_⟩
    refine (acceptsAll_iff (run_represents calls) ts').mpr
      (batchAcceptable_iff.mpr ⟨?_, ?_, ?_⟩)
    · rw [← batchPayable_withPrf {}, hsame]
      exact (batchPayable_withPrf {}).mpr hpayable
    · rw [hbytes, List.zipIdx_map_snd]
      exact (List.nodup_range' 1).map hinj
    · refine List.forall_mem_map.mpr fun p _ => ?_
      rw [withPrf_prf_output]
      exact hunseen p.2

end PlaintextModel

end Prifhete
