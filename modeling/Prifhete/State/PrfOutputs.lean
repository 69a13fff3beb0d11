import Mathlib.Data.Finset.Dedup
import Prifhete.State.Run

/-! # PRF outputs and the history of a run

    The model records a PRF output twice, in a set that decides freshness
    and in a list that keeps the order, and forgets both when the epoch
    changes. Against the history, both hold what the mints and transfers
    accepted since the epoch last changed have carried.
-/

namespace Prifhete

namespace PlaintextModel

/-! ### What the history says -/

/-- The PRF output a call carries. -/
def Call.prf_output? : Call → Option PRFOutput
  | .mint t => some t.prf_output
  | .transfer t => some t.prf_output
  | _ => none

/-- The PRF outputs a history has used up, those of its accepted
    transactions, oldest first. -/
def usedPrfs (h : List Event) : List PRFOutput := ofAccepted Call.prf_output? h

/-- The events since the epoch last changed. -/
def sinceEpochChange (h : List Event) : List Event := Machine.sinceChange (·.current_epoch_) h

@[simp] theorem sinceEpochChange_nil : sinceEpochChange [] = [] := Machine.sinceChange_nil _

theorem sinceEpochChange_concat (h : List Event) (e : Event) :
    sinceEpochChange (h ++ [e]) =
      if e.before.current_epoch_ = e.after.current_epoch_ then sinceEpochChange h ++ [e]
      else [] := Machine.sinceChange_concat ..

theorem prf_output_of_movesEpoch {call : Call} (h : call.movesEpoch = true) :
    call.prf_output? = none :=
  Call.of_movesEpoch (P := fun call => call.prf_output? = none) rfl (fun _ => rfl) (fun _ => rfl) h

/-! ### Keys -/

/-- Different byte strings have different keys. -/
theorem toKey_inj {bytes bytes' : ByteString} : toKey bytes = toKey bytes' ↔ bytes = bytes' := by
  have hinj : Function.Injective UInt8.toInt8 := by
    intro b b' h
    have hback := congrArg Int8.toUInt8 h
    simpa using hback
  exact (List.map_injective_iff.mpr hinj).eq_iff

/-! ### One call -/

/-- The set of seen keys after a call has used up a PRF output, if any. -/
def seenAfter (seen : Finset StdString) : Option PRFOutput → Finset StdString
  | none => seen
  | some prf => insert (toKey prf.bytes) seen

theorem mem_seenAfter {seen : Finset StdString} {prf? : Option PRFOutput} {key : StdString} :
    key ∈ seenAfter seen prf? ↔
      key ∈ seen ∨ ∃ prf, prf? = some prf ∧ toKey prf.bytes = key := by
  cases prf? with
  | none => simp [seenAfter]
  | some prf =>
    simp only [seenAfter, Finset.mem_insert, Option.some.injEq, exists_eq_left']
    constructor
    · intro h
      rcases h with h | h
      · exact Or.inr h.symm
      · exact Or.inl h
    · intro h
      rcases h with h | h
      · exact Or.inr h
      · exact Or.inl h.symm

/-- Leaving the epoch empties both records. -/
theorem advancedBy_forgets {m : PlaintextModel} {n : Nat} (hpos : 0 < n) :
    (m.advancedBy n).accepted_prf_outputs_in_current_epoch_ = [] ∧
      (m.advancedBy n).prf_outputs_in_current_epoch_ = ∅ := by
  obtain ⟨k, rfl⟩ : ∃ k, n = k + 1 := ⟨n - 1, by omega⟩
  rw [advancedBy_succ]
  exact ⟨rfl, rfl⟩

/-- Within an epoch a call adds what it has used up; leaving the epoch
    forgets everything. -/
theorem prf_step {m m' : PlaintextModel} {call : Call} {reply : Reply}
    {trail : List PlaintextModel} (hstep : Transition m call reply trail m') :
    (m.current_epoch_ = m'.current_epoch_ ∧
      m'.accepted_prf_outputs_in_current_epoch_ =
        m.accepted_prf_outputs_in_current_epoch_ ++
          (ifAccepted Call.prf_output? call reply).toList ∧
      m'.prf_outputs_in_current_epoch_ =
        seenAfter m.prf_outputs_in_current_epoch_ (ifAccepted Call.prf_output? call reply)) ∨
    (m.current_epoch_ ≠ m'.current_epoch_ ∧
      m'.accepted_prf_outputs_in_current_epoch_ = [] ∧
      m'.prf_outputs_in_current_epoch_ = ∅) := by
  cases hstep with
  | idle hreply =>
    rw [ifAccepted_of_refused _ hreply, Option.toList_none, List.append_nil]
    exact Or.inl ⟨rfl, rfl, rfl⟩
  | reached | registered | replaced | inserted =>
    -- none of these carries a PRF output
    rw [ifAccepted_of_none _ rfl, Option.toList_none, List.append_nil]
    exact Or.inl ⟨rfl, rfl, rfl⟩
  | @minted mint result _ hok =>
    rw [ifAccepted_of_accepted _ (accepted_mint hok)]
    exact Or.inl ⟨rfl, rfl, rfl⟩
  | @transferred transfer result _ hok =>
    rw [ifAccepted_of_accepted _ (accepted_transfer hok)]
    exact Or.inl ⟨rfl, rfl, rfl⟩
  | advanced _ _ hpos hroom =>
    refine Or.inr ⟨?_, advancedBy_forgets hpos⟩
    intro heq
    have hepoch := advancedBy_current_epoch hroom
    rw [← heq] at hepoch
    omega
  | movedBack hlt => exact Or.inr ⟨(UInt64.ne_of_lt hlt).symm, rfl, rfl⟩

/-- An accepted transaction is a mint or a transfer that has passed the checks. -/
theorem Transition.admitted {m m' : PlaintextModel} {call : Call} {reply : Reply}
    {trail : List PlaintextModel} (hstep : Transition m call reply trail m') {prf : PRFOutput}
    (hok : reply.accepted = true) (hprf : call.prf_output? = some prf) :
    (∃ t, call = .mint t ∧ m.mintAdmissible t = true) ∨
      ∃ t, call = .transfer t ∧ m.transferAdmissible t = true := by
  cases hstep with
  | idle hreply =>
    rw [hreply] at hok
    contradiction
  | minted hadm => exact Or.inl ⟨_, rfl, hadm⟩
  | transferred hadm => exact Or.inr ⟨_, rfl, hadm⟩
  | advanced hmoves =>
    rw [prf_output_of_movesEpoch hmoves] at hprf
    contradiction
  | _ => contradiction

/-- What a call uses up was fresh. -/
theorem usedPrf_fresh {m m' : PlaintextModel} {call : Call} {reply : Reply}
    {trail : List PlaintextModel} (hstep : Transition m call reply trail m') {prf : PRFOutput}
    (hok : reply.accepted = true) (hprf : call.prf_output? = some prf) :
    toKey prf.bytes ∉ m.prf_outputs_in_current_epoch_ := by
  rcases hstep.admitted hok hprf with ⟨t, hcall, hadm⟩ | ⟨t, hcall, hadm⟩
  · rw [hcall] at hprf
    obtain rfl : t.prf_output = prf := Option.some.inj hprf
    exact (mintAdmissible_iff.mp hadm).2.2.2
  · rw [hcall] at hprf
    obtain rfl : t.prf_output = prf := Option.some.inj hprf
    exact (transferAdmissible_iff.mp hadm).2.2.2.2.1

/-! ### Runs -/

/-- Both records hold what the history has used up in the current epoch. -/
structure PrfHistory (h : List Event) (m : PlaintextModel) : Prop where
  log : m.accepted_prf_outputs_in_current_epoch_ = usedPrfs (sinceEpochChange h)
  seen : ∀ key, key ∈ m.prf_outputs_in_current_epoch_ ↔
    ∃ prf ∈ usedPrfs (sinceEpochChange h), toKey prf.bytes = key

theorem prfHistory (calls : List Call) :
    PrfHistory (machine.events calls) (machine.final calls) := by
  refine machine.history_invariant PrfHistory ?_ ?_ calls
  · refine ⟨rfl, ?_⟩
    intro key
    simp [create, allocateNextRoot, usedPrfs]
  · intro h m call hprf
    have hconcat : sinceEpochChange (h ++ [machine.event m call]) =
        if m.current_epoch_ = (m.exec call).2.current_epoch_ then
          sinceEpochChange h ++ [machine.event m call]
        else [] := sinceEpochChange_concat ..
    rcases prf_step (m.exec_transition call) with
      ⟨hepoch, hlog, hseen⟩ | ⟨hepoch, hlog, hseen⟩
    · -- the epoch goes on, and with it the records
      rw [if_pos hepoch] at hconcat
      constructor
      · rw [hconcat, usedPrfs, ofAccepted_concat, ← usedPrfs, ← hprf.log]
        exact hlog
      · intro key
        rw [hconcat, usedPrfs, ofAccepted_concat, machine_exec, hseen, mem_seenAfter, hprf.seen,
          usedPrfs]
        simp only [Machine.event_call, Machine.event_reply, machine_exec, List.mem_append,
          Option.mem_toList, or_and_right, exists_or]
    · -- a new epoch starts with empty records
      rw [if_neg hepoch] at hconcat
      constructor
      · rw [hconcat]
        exact hlog
      · intro key
        rw [hconcat, machine_exec, hseen]
        simp [usedPrfs]

/-- A PRF output is fresh when no transaction accepted since the epoch last
    changed has carried the same bytes. -/
theorem fresh_iff (calls : List Call) (prf : PRFOutput) :
    toKey prf.bytes ∉ (machine.final calls).prf_outputs_in_current_epoch_ ↔
      ∀ used ∈ usedPrfs (sinceEpochChange (machine.events calls)),
        used.bytes ≠ prf.bytes := by
  rw [(prfHistory calls).seen]
  constructor
  · intro h used hused heq
    exact h ⟨used, hused, by rw [heq]⟩
  · intro h ⟨used, hused, hkey⟩
    exact h used hused (toKey_inj.mp hkey)

/-! ### The list and the set -/

/-- No byte string is recorded twice: what a call uses up is fresh. -/
theorem log_nodup (calls : List Call) :
    ((machine.final calls).accepted_prf_outputs_in_current_epoch_.map (·.bytes)).Nodup := by
  induction calls using List.reverseRecOn with
  | nil => exact List.nodup_nil
  | append_singleton calls call ih =>
    have hstep := (machine.final calls).exec_transition call
    rw [machine.final_concat, machine_exec]
    rcases prf_step hstep with ⟨_, hlog, _⟩ | ⟨_, hlog, _⟩
    · rw [hlog]
      cases hprf : ifAccepted Call.prf_output? call ((machine.final calls).exec call).1 with
      | none => simpa using ih
      | some prf =>
        obtain ⟨hok, hprf⟩ := (ifAccepted_eq_some _).mp hprf
        have hnew := (fresh_iff calls prf).mp (usedPrf_fresh hstep hok hprf)
        rw [← (prfHistory calls).log] at hnew
        rw [Option.toList_some, List.map_append, List.map_singleton, List.nodup_append]
        refine ⟨ih, List.nodup_singleton _, ?_⟩
        intro bytes hbytes bytes' hbytes'
        obtain ⟨used, hused, rfl⟩ := List.mem_map.mp hbytes
        rw [List.mem_singleton.mp hbytes']
        exact hnew used hused
    · rw [hlog]
      exact List.nodup_nil

/-- The set holds the keys of the list. -/
theorem seen_eq_log (calls : List Call) :
    (machine.final calls).prf_outputs_in_current_epoch_ =
      ((machine.final calls).accepted_prf_outputs_in_current_epoch_.map
        fun prf => toKey prf.bytes).toFinset := by
  ext key
  rw [(prfHistory calls).seen, ← (prfHistory calls).log, List.mem_toFinset, List.mem_map]

theorem mem_seen_iff (calls : List Call) (prf : PRFOutput) :
    toKey prf.bytes ∈ (machine.final calls).prf_outputs_in_current_epoch_ ↔
      prf ∈ (machine.final calls).accepted_prf_outputs_in_current_epoch_ := by
  rw [seen_eq_log, List.mem_toFinset, List.mem_map]
  constructor
  · intro ⟨used, hused, hkey⟩
    -- a PRF output is its bytes, and the key determines them
    obtain ⟨bytes⟩ := used
    obtain ⟨bytes'⟩ := prf
    obtain rfl : bytes = bytes' := toKey_inj.mp hkey
    exact hused
  · intro hmem
    exact ⟨prf, hmem, rfl⟩

/-- The set is as large as the list is long, as no two of its keys agree. -/
theorem card_seen (calls : List Call) :
    (machine.final calls).prf_outputs_in_current_epoch_.card =
      (machine.final calls).accepted_prf_outputs_in_current_epoch_.length := by
  have hkeys : ((machine.final calls).accepted_prf_outputs_in_current_epoch_.map
      fun prf => toKey prf.bytes).Nodup := by
    have hmap := (log_nodup calls).map (f := toKey) fun _ _ h => toKey_inj.mp h
    rwa [List.map_map] at hmap
  rw [seen_eq_log, List.toFinset_card_of_nodup hkeys, List.length_map]

/-- **One account of the PRF outputs.** After every run the log lists what the
    mints and transfers accepted since the epoch last changed have carried,
    in the order of acceptance and no byte string twice; a PRF output counts
    as seen iff it is in the log; and both counts shown are its length. -/
theorem prf_records_agree (calls : List Call) :
    let m := machine.final calls
    m.accepted_prf_outputs = usedPrfs (sinceEpochChange (machine.events calls)) ∧
    (m.accepted_prf_outputs.map (·.bytes)).Nodup ∧
    (∀ prf, m.hasSeenPrfOutputInCurrentEpoch prf = true ↔ prf ∈ m.accepted_prf_outputs) ∧
    m.inspectEpochState.accepted_prf_output_count = m.accepted_prf_outputs.length ∧
    m.inspectEpochState.used_prf_output_count = m.accepted_prf_outputs.length := by
  intro m
  refine ⟨(prfHistory calls).log, log_nodup calls, ?_, rfl, card_seen calls⟩
  intro prf
  rw [hasSeenPrfOutputInCurrentEpoch, decide_eq_true_eq]
  exact mem_seen_iff calls prf

end PlaintextModel

end Prifhete
