import Prifhete.State.Acceptance
import Prifhete.State.KnownRoots

/-! # Transactions in another order

    Within an epoch the mints and transfers of a run can be made in any
    order in which they are accepted: the model ends in the same state, but
    for the order of the PRF log. An accepted transaction records its PRF
    output, shifts balances modulo the word size and issues a root; each of
    these commutes with those of another transaction, the log apart.
-/

namespace Prifhete

open Sequences

namespace PlaintextModel

/-- A mint or a transfer. -/
inductive Transaction where
  | mint (mint : PublicToPrivateMint)
  | transfer (transfer : PrivateTransfer)
  deriving DecidableEq, Repr

namespace Transaction

def call : Transaction → Call
  | .mint t => .mint t
  | .transfer t => .transfer t

def prf_output : Transaction → PRFOutput
  | .mint t => t.prf_output
  | .transfer t => t.prf_output

/-- What it adds to the balances, in the order of the source; a debit adds
    the negative. -/
def shifts : Transaction → List (AccountIndex × UInt64)
  | .mint t => [(t.recipient_index, t.value)]
  | .transfer t => [(t.sender_index, -t.value), (t.receiver_index, t.value)]

end Transaction

/-- All of these transactions are accepted, submitted one after the other. -/
def AcceptsAll (m : PlaintextModel) : List Transaction → Prop
  | [] => True
  | t :: ts => (m.exec t.call).1.accepted = true ∧ AcceptsAll (m.exec t.call).2 ts

/-- The state in which they leave the model. -/
def submitAll (m : PlaintextModel) (ts : List Transaction) : PlaintextModel :=
  ts.foldl (fun m t => (m.exec t.call).2) m

/-! ### What an accepted transaction does -/

def shiftBalances (m : PlaintextModel) (shifts : List (AccountIndex × UInt64)) : PlaintextModel :=
  shifts.foldl (fun m shift => m.updateBalance shift.1 (· + shift.2)) m

/-- The state an accepted transaction leaves. -/
def applied (m : PlaintextModel) (t : Transaction) : PlaintextModel :=
  ((m.recordedPrf t.prf_output).shiftBalances t.shifts).issueRoot

theorem exec_accepted {m : PlaintextModel} {t : Transaction}
    (hok : (m.exec t.call).1.accepted = true) : (m.exec t.call).2 = m.applied t := by
  cases t with
  | mint t =>
    have hadm : m.mintAdmissible t = true := mint_ok_iff.mp hok
    show (m.mint t).2 = _
    rw [mint_of_admissible hadm]
    rfl
  | transfer t =>
    have hadm : m.transferAdmissible t = true := transfer_ok_iff.mp hok
    show (m.transfer t).2 = _
    rw [transfer_of_admissible hadm]
    simp only [applied, Transaction.shifts, shiftBalances, List.foldl_cons, List.foldl_nil,
      ← UInt64.sub_eq_add_neg]
    rfl

theorem submitAll_of_accepted {m : PlaintextModel} {ts : List Transaction}
    (h : AcceptsAll m ts) : submitAll m ts = ts.foldl applied m := by
  induction ts generalizing m with
  | nil => rfl
  | cons t ts ih =>
    obtain ⟨hok, hrest⟩ := h
    have hstep := exec_accepted hok
    rw [hstep] at hrest
    rw [submitAll, List.foldl_cons, hstep]
    exact ih hrest

/-! ### What commutes -/

theorem issueRoot_accounts_eq_entries (m : PlaintextModel) :
    m.issueRoot.accounts_ = m.issueRoot.entries.foldl
      (fun accounts entry => accounts.insert entry.account_id entry) m.accounts_ := by
  rw [issueRoot_accounts, entries, List.foldl_map]

/-- The refresh does not look at balances. -/
theorem issueRoot_updateBalance (m : PlaintextModel) (i : AccountIndex) (f : UInt64 → UInt64) :
    (m.updateBalance i f).issueRoot = m.issueRoot.updateBalance i f := by
  have hrefresh : (m.updateBalance i f).issueRoot.refreshEntry = m.issueRoot.refreshEntry := rfl
  have hstates : (m.updateBalance i f).issueRoot.account_states_ =
      (m.issueRoot.updateBalance i f).account_states_ := by
    apply StdVector.ext
    rw [issueRoot_account_states, updateBalance_account_states, updateBalance_account_states,
      issueRoot_account_states, hrefresh]
    apply map_modify_comm
    intro state
    rfl
  have hentries : (m.updateBalance i f).issueRoot.entries = m.issueRoot.entries := by
    rw [entries, hstates]
    exact updateBalance_entries m.issueRoot i f
  have haccounts : (m.updateBalance i f).issueRoot.accounts_ = m.issueRoot.accounts_ := by
    rw [issueRoot_accounts_eq_entries, issueRoot_accounts_eq_entries, hentries]
    rfl
  exact PlaintextModel.ext haccounts hstates rfl rfl rfl rfl rfl rfl rfl rfl

/-- Two additions to balances, to the same one or not. -/
theorem updateBalance_comm (m : PlaintextModel) (i j : AccountIndex) (a b : UInt64) :
    (m.updateBalance i (· + a)).updateBalance j (· + b) =
      (m.updateBalance j (· + b)).updateBalance i (· + a) := by
  have hstates : ((m.updateBalance i (· + a)).updateBalance j (· + b)).account_states_ =
      ((m.updateBalance j (· + b)).updateBalance i (· + a)).account_states_ := by
    apply StdVector.ext
    apply modify_comm
    intro state
    show { state with balance := state.balance + a + b } =
      { state with balance := state.balance + b + a }
    rw [UInt64.add_assoc, UInt64.add_comm a b, UInt64.add_assoc]
  exact PlaintextModel.ext rfl hstates rfl rfl rfl rfl rfl rfl rfl rfl

section ShiftBalances

variable (m : PlaintextModel) (shifts : List (AccountIndex × UInt64))

theorem shiftBalances_issueRoot :
    m.issueRoot.shiftBalances shifts = (m.shiftBalances shifts).issueRoot := by
  induction shifts generalizing m with
  | nil => rfl
  | cons shift shifts ih =>
    show (m.issueRoot.updateBalance _ _).shiftBalances shifts = _
    rw [← issueRoot_updateBalance, ih]
    rfl

theorem shiftBalances_recordedPrf (prf_output : PRFOutput) :
    (m.recordedPrf prf_output).shiftBalances shifts =
      (m.shiftBalances shifts).recordedPrf prf_output := by
  induction shifts generalizing m with
  | nil => rfl
  | cons shift shifts ih => exact ih (m.updateBalance shift.1 (· + shift.2))

/-- Balances are shifted in any order. -/
theorem shiftBalances_perm {shifts shifts' : List (AccountIndex × UInt64)}
    (h : shifts.Perm shifts') : m.shiftBalances shifts = m.shiftBalances shifts' :=
  h.foldl_eq' (fun _ _ _ _ _ => updateBalance_comm ..) m

end ShiftBalances

/-- Two transactions: both PRF outputs, all shifts, two roots. -/
theorem applied_applied (m : PlaintextModel) (t u : Transaction) :
    (m.applied t).applied u =
      (((m.recordedPrf t.prf_output).recordedPrf u.prf_output).shiftBalances
        (t.shifts ++ u.shifts)).issueRoot.issueRoot := by
  unfold applied
  have hrecord : ∀ p : PlaintextModel, p.issueRoot.recordedPrf u.prf_output =
      (p.recordedPrf u.prf_output).issueRoot := fun _ => rfl
  rw [hrecord, shiftBalances_issueRoot, ← shiftBalances_recordedPrf]
  unfold shiftBalances
  rw [List.foldl_append]

/-- The model but for the order of the PRF log. -/
def withoutLog (m : PlaintextModel) : PlaintextModel :=
  { m with accepted_prf_outputs_in_current_epoch_ := [] }

theorem withoutLog_shiftBalances (m : PlaintextModel) (shifts : List (AccountIndex × UInt64)) :
    (m.shiftBalances shifts).withoutLog = m.withoutLog.shiftBalances shifts := by
  induction shifts generalizing m with
  | nil => rfl
  | cons shift shifts ih => exact ih _

/-- No transaction looks at the log. -/
theorem withoutLog_applied {m m' : PlaintextModel} (t : Transaction)
    (h : m.withoutLog = m'.withoutLog) : (m.applied t).withoutLog = (m'.applied t).withoutLog := by
  have hlog : ∀ p : PlaintextModel,
      (p.applied t).withoutLog = ((p.withoutLog.applied t)).withoutLog := by
    intro p
    cases t <;> rfl
  rw [hlog m, hlog m', h]

/-- Two transactions commute, but for the order of the log. -/
theorem applied_comm (m : PlaintextModel) (t u : Transaction) :
    ((m.applied t).applied u).withoutLog = ((m.applied u).applied t).withoutLog := by
  have hrecord : ((m.recordedPrf t.prf_output).recordedPrf u.prf_output).withoutLog =
      ((m.recordedPrf u.prf_output).recordedPrf t.prf_output).withoutLog := by
    have hset := Finset.insert_comm (toKey u.prf_output.bytes) (toKey t.prf_output.bytes)
      m.prf_outputs_in_current_epoch_
    exact PlaintextModel.ext rfl rfl rfl rfl rfl hset rfl rfl rfl rfl
  have hissue : ∀ p : PlaintextModel, p.issueRoot.issueRoot.withoutLog =
      p.withoutLog.issueRoot.issueRoot := fun _ => rfl
  rw [applied_applied, applied_applied, hissue, hissue, withoutLog_shiftBalances,
    withoutLog_shiftBalances, hrecord, shiftBalances_perm _ List.perm_append_comm]

/-! ### Whole lists -/

theorem foldl_applied_log (m : PlaintextModel) (ts : List Transaction) :
    (ts.foldl applied m).accepted_prf_outputs_in_current_epoch_ =
      m.accepted_prf_outputs_in_current_epoch_ ++ ts.map (·.prf_output) := by
  have hone : ∀ (p : PlaintextModel) (t : Transaction),
      (p.applied t).accepted_prf_outputs_in_current_epoch_ =
        p.accepted_prf_outputs_in_current_epoch_ ++ [t.prf_output] := by
    intro p t
    cases t <;> rfl
  induction ts generalizing m with
  | nil => exact (List.append_nil _).symm
  | cons t ts ih => rw [List.foldl_cons, ih, hone, List.append_assoc]; rfl

/-- Two orders in which all transactions are accepted lead to the same state,
    but for the order of the log. -/
theorem submitAll_perm {m : PlaintextModel} {ts ts' : List Transaction} (hperm : ts.Perm ts')
    (h : AcceptsAll m ts) (h' : AcceptsAll m ts') :
    (submitAll m ts).withoutLog = (submitAll m ts').withoutLog ∧
      (submitAll m ts).accepted_prf_outputs_in_current_epoch_.Perm
        (submitAll m ts').accepted_prf_outputs_in_current_epoch_ := by
  rw [submitAll_of_accepted h, submitAll_of_accepted h', foldl_applied_log, foldl_applied_log]
  refine ⟨?_, (hperm.map _).append_left _⟩
  exact view_foldl_perm withoutLog (fun _ _ t => withoutLog_applied t) applied_comm hperm m

/-! ### Mints whose roots are valid -/

/-- A mint of which the root is valid in `m`. -/
def Transaction.IsMintWithRootIn (m : PlaintextModel) (t : Transaction) : Prop :=
  ∃ mint, t = .mint mint ∧ m.isValidRoot mint.referenced_root = true

section AfterMint

variable {calls : List Call} {mint : PublicToPrivateMint}

theorem final_after_mint (hok : ((machine.final calls).exec (.mint mint)).1.accepted = true) :
    machine.final (calls ++ [.mint mint]) = (machine.final calls).minted mint := by
  rw [machine.final_concat]
  exact congrArg Prod.snd (mint_of_admissible (mint_ok_iff.mp hok))

/-- A root that is valid stays so, as the epoch stays and the map keeps it. -/
theorem isValidRoot_after_mint (hok : ((machine.final calls).exec (.mint mint)).1.accepted = true)
    {root : RootReference} (hroot : (machine.final calls).isValidRoot root = true) :
    (machine.final (calls ++ [.mint mint])).isValidRoot root = true := by
  have hkeeps := (rootHistory calls).keepsRoots (rootHistory (calls ++ [.mint mint]))
    (machine.points_prefix calls _)
  unfold isValidRoot at hroot ⊢
  rw [validateReferencedRoot_ok] at hroot ⊢
  refine ⟨hkeeps _ _ hroot.1, ?_⟩
  rw [final_after_mint hok]
  exact hroot.2

/-- Another mint then meets the same checks, and a PRF output more. -/
theorem accepted_after_mint (hok : ((machine.final calls).exec (.mint mint)).1.accepted = true)
    {t : Transaction} (ht : t.IsMintWithRootIn (machine.final calls)) :
    ((machine.final (calls ++ [.mint mint])).exec t.call).1.accepted = true ↔
      ((machine.final calls).exec t.call).1.accepted = true ∧
        t.prf_output.bytes ≠ mint.prf_output.bytes := by
  obtain ⟨other, rfl, hroot⟩ := ht
  have hroot' := isValidRoot_after_mint hok hroot
  rw [final_after_mint hok] at hroot' ⊢
  show (((machine.final calls).minted mint).mint other).1.status.ok = true ↔
    ((machine.final calls).mint other).1.status.ok = true ∧
      other.prf_output.bytes ≠ mint.prf_output.bytes
  have hseen : ((machine.final calls).minted mint).prf_outputs_in_current_epoch_ =
      insert (toKey mint.prf_output.bytes) (machine.final calls).prf_outputs_in_current_epoch_ :=
    rfl
  unfold isValidRoot at hroot hroot'
  rw [mint_ok_iff, mint_ok_iff, mintAdmissible_iff, mintAdmissible_iff, isValidAccountIndex_iff,
    isValidAccountIndex_iff, length_minted, hseen, Finset.mem_insert, not_or, toKey_inj]
  constructor
  · intro h
    obtain ⟨hid, hindex, _, hnew, hfresh⟩ := h
    exact ⟨⟨hid, hindex, hroot, hfresh⟩, hnew⟩
  · intro h
    obtain ⟨⟨hid, hindex, _, hfresh⟩, hnew⟩ := h
    exact ⟨hid, hindex, hroot', hnew, hfresh⟩

end AfterMint

/-- Such mints are all accepted iff each is on its own and no two carry the
    same PRF bytes, which says nothing about their order. -/
theorem acceptsAll_mints_iff {calls : List Call} {ts : List Transaction}
    (hmints : ∀ t ∈ ts, t.IsMintWithRootIn (machine.final calls)) :
    AcceptsAll (machine.final calls) ts ↔
      (∀ t ∈ ts, ((machine.final calls).exec t.call).1.accepted = true) ∧
        (ts.map (·.prf_output.bytes)).Nodup := by
  induction ts generalizing calls with
  | nil => simp [AcceptsAll]
  | cons t ts ih =>
    obtain ⟨mint, rfl, _⟩ := hmints t List.mem_cons_self
    have hrest : ∀ u ∈ ts, u.IsMintWithRootIn (machine.final calls) :=
      fun u hu => hmints u (List.mem_cons_of_mem _ hu)
    rw [AcceptsAll, List.forall_mem_cons, List.map_cons, List.nodup_cons, and_assoc]
    apply and_congr_right
    intro hok
    have hrest' : ∀ u ∈ ts, u.IsMintWithRootIn (machine.final (calls ++ [.mint mint])) := by
      intro u hu
      obtain ⟨other, hother, hroot⟩ := hrest u hu
      exact ⟨other, hother, isValidRoot_after_mint hok hroot⟩
    have hfinal : ((machine.final calls).exec (.mint mint)).2 =
        machine.final (calls ++ [.mint mint]) := (machine.final_concat _ _).symm
    show AcceptsAll ((machine.final calls).exec (.mint mint)).2 ts ↔ _
    rw [hfinal, ih hrest']
    -- the later mints are new to the first one, as it is to them
    constructor
    · intro ⟨haccepted, hnodup⟩
      have hboth := fun u hu => (accepted_after_mint hok (hrest u hu)).mp (haccepted u hu)
      refine ⟨fun u hu => (hboth u hu).1, ?_, hnodup⟩
      intro hmem
      obtain ⟨u, hu, hbytes⟩ := List.mem_map.mp hmem
      exact (hboth u hu).2 hbytes
    · intro ⟨haccepted, hnew, hnodup⟩
      refine ⟨?_, hnodup⟩
      intro u hu
      refine (accepted_after_mint hok (hrest u hu)).mpr ⟨haccepted u hu, ?_⟩
      intro hbytes
      exact hnew (List.mem_map.mpr ⟨u, hu, hbytes⟩)

theorem acceptsAll_mints_perm {calls : List Call} {ts ts' : List Transaction}
    (hperm : ts.Perm ts') (hmints : ∀ t ∈ ts, t.IsMintWithRootIn (machine.final calls))
    (h : AcceptsAll (machine.final calls) ts) : AcceptsAll (machine.final calls) ts' := by
  have hmints' : ∀ t ∈ ts', t.IsMintWithRootIn (machine.final calls) :=
    fun t ht => hmints t (hperm.mem_iff.mpr ht)
  obtain ⟨haccepted, hnodup⟩ := (acceptsAll_mints_iff hmints).mp h
  exact (acceptsAll_mints_iff hmints').mpr
    ⟨fun t ht => haccepted t (hperm.mem_iff.mpr ht), (hperm.map _).nodup_iff.mp hnodup⟩

/-- **The order does not matter.** From every reachable state, two orders in
    which the same mints and transfers are all accepted leave the same
    balances, entries and indices, the same roots, known, current and of the
    epoch, the same version counter and the same seen PRF outputs, with the
    log in another order. Mints whose roots are valid in the state are
    accepted in every order if they are in one. -/
theorem order_independent (calls : List Call) :
    let s := machine.final calls
    ∀ ts ts' : List Transaction, ts.Perm ts' → AcceptsAll s ts →
      (AcceptsAll s ts' →
        let m := submitAll s ts
        let m' := submitAll s ts'
        (∀ i, m'.inspectBalance i = m.inspectBalance i) ∧
        (∀ id, m'.findAccount id = m.findAccount id) ∧
        (∀ i, m'.findAccountByIndex i = m.findAccountByIndex i) ∧
        (∀ id, m'.findAccountIndex id = m.findAccountIndex id) ∧
        m'.current_root_reference = m.current_root_reference ∧
        m'.valid_roots_ = m.valid_roots_ ∧
        m'.root_version_ = m.root_version_ ∧
        m'.current_root_versions = m.current_root_versions ∧
        m'.prf_outputs_in_current_epoch_ = m.prf_outputs_in_current_epoch_ ∧
        m.accepted_prf_outputs.Perm m'.accepted_prf_outputs) ∧
      ((∀ t ∈ ts, ∃ mint, t = .mint mint ∧ s.isValidRoot mint.referenced_root = true) →
        AcceptsAll s ts') := by
  intro s ts ts' hperm h
  refine ⟨?_, fun hmints => acceptsAll_mints_perm hperm hmints h⟩
  intro h' m m'
  obtain ⟨hsame, hlog⟩ := submitAll_perm hperm h h'
  -- none of the queries reads the log
  have hquery : ∀ {α : Type} (f : PlaintextModel → α),
      (∀ p, f p.withoutLog = f p) → f m' = f m := by
    intro α f hf
    rw [← hf m', ← hf m]
    exact congrArg f hsame.symm
  exact ⟨fun i => hquery (·.inspectBalance i) fun _ => rfl,
    fun id => hquery (·.findAccount id) fun _ => rfl,
    fun i => hquery (·.findAccountByIndex i) fun _ => rfl,
    fun id => hquery (·.findAccountIndex id) fun _ => rfl,
    hquery current_root_reference fun _ => rfl, hquery valid_roots_ fun _ => rfl,
    hquery root_version_ fun _ => rfl, hquery current_root_versions fun _ => rfl,
    hquery prf_outputs_in_current_epoch_ fun _ => rfl, hlog⟩

/-- A mint and a payment by the account it mints to, in both orders. -/
theorem order_independent_mint_and_payment :
    let calls : List Call :=
      [.register { account_id := StdString.ofAscii "alice", public_key := {} },
        .register { account_id := StdString.ofAscii "bob", public_key := {} },
        .mint { transaction_id := StdString.ofAscii "mint-1", recipient_index := { value := 0 },
                value := 5, prf_output := { bytes := [1] },
                referenced_root := rootFor 0 { value := 3 } }]
    let mint : Transaction := .mint {
      transaction_id := StdString.ofAscii "mint-2"
      recipient_index := { value := 0 }
      value := 2
      prf_output := { bytes := [2] }
      referenced_root := rootFor 0 { value := 3 } }
    let payment : Transaction := .transfer {
      transaction_id := StdString.ofAscii "transfer-1"
      sender_index := { value := 0 }
      receiver_index := { value := 1 }
      value := 4
      prf_output := { bytes := [3] }
      referenced_root := rootFor 0 { value := 4 } }
    let s := machine.final calls
    (AcceptsAll s [mint, payment] ∧ AcceptsAll s [payment, mint]) ∧
      (submitAll s [payment, mint]).inspectBalance { value := 0 } =
        (submitAll s [mint, payment]).inspectBalance { value := 0 } := by
  intro calls mint payment s
  have h : AcceptsAll s [mint, payment] := ⟨by decide, by decide, trivial⟩
  have h' : AcceptsAll s [payment, mint] := ⟨by decide, by decide, trivial⟩
  have hsame :=
    (order_independent calls [mint, payment] [payment, mint] (List.Perm.swap _ _ _) h).1 h'
  exact ⟨⟨h, h'⟩, hsame.1 _⟩

end PlaintextModel

end Prifhete
