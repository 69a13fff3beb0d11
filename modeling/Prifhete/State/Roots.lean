import Prifhete.Lib.Decimal
import Prifhete.Lib.Sequences
import Prifhete.State.Run

/-! # The roots a run has issued

    Every root of a run is the root of its epoch and version, and the text
    of a root determines both. `RootHistory` ties the root fields of the
    model to the sequence of points it has passed through: the version
    counts the roots issued so far, the root map knows exactly these, and
    the key list those since the epoch last changed.
-/

namespace Prifhete

open Sequences

/-! ### The text of a root -/

/-- ASCII texts are told apart by their `char`s. -/
theorem StdString.ofAscii_inj {s t : String} (hs : ∀ c ∈ s.toList, c.toNat < 128)
    (ht : ∀ c ∈ t.toList, c.toNat < 128) :
    StdString.ofAscii s = StdString.ofAscii t ↔ s.toList = t.toList := by
  -- an ASCII character can be read back from its `char`
  have hread : ∀ text : String, (∀ c ∈ text.toList, c.toNat < 128) →
      (StdString.ofAscii text).map (fun b => Char.ofNat b.toInt.toNat) = text.toList := by
    intro text htext
    rw [StdString.ofAscii, List.map_map]
    conv_rhs => rw [← List.map_id text.toList]
    apply List.map_congr_left
    intro c hc
    have hlt := htext c hc
    have hint : (Int8.ofNat c.toNat).toInt = c.toNat := Int8.toInt_ofNat_of_lt (by omega)
    rw [Function.comp_apply, hint, Int.toNat_natCast, Char.ofNat_toNat, id]
  constructor
  · intro h
    rw [← hread s hs, ← hread t ht, h]
  · intro h
    rw [StdString.ofAscii, StdString.ofAscii, h]

namespace PlaintextModel

theorem toList_encodeRoot (epoch : EpochNumber) (version : RootVersion) :
    (encodeRoot epoch version).toList =
      "plaintext-root:e".toList ++
        (Nat.toDigits 10 epoch.toNat ++ ':' :: (['v'] ++ Nat.toDigits 10 version.value.toNat)) := by
  have hseparator : ":v".toList = ':' :: ['v'] := by decide
  unfold encodeRoot
  simp only [Nat.toString_eq_repr, String.toList_append, Nat.toList_repr, hseparator,
    List.append_assoc, List.cons_append]

/-- The text of a root is ASCII. -/
theorem encodeRoot_ascii (epoch : EpochNumber) (version : RootVersion) :
    ∀ c ∈ (encodeRoot epoch version).toList, c.toNat < 128 := by
  have hhead : ∀ c ∈ "plaintext-root:e".toList, c.toNat < 128 := by simp
  intro c hc
  rw [toList_encodeRoot] at hc
  rcases List.mem_append.mp hc with hc | hc
  · exact hhead c hc
  rcases List.mem_append.mp hc with hc | hc
  · exact Decimal.toNat_lt_of_mem_toDigits hc
  rcases List.mem_cons.mp hc with hc | hc
  · rw [hc]
    decide
  rcases List.mem_cons.mp hc with hc | hc
  · rw [hc]
    decide
  · exact Decimal.toNat_lt_of_mem_toDigits hc

/-- The text of a root determines its epoch and version. -/
theorem encodeRoot_inj {epoch epoch' : EpochNumber} {version version' : RootVersion} :
    (encodeRoot epoch version).toList = (encodeRoot epoch' version').toList ↔
      epoch = epoch' ∧ version = version' := by
  rw [toList_encodeRoot, toList_encodeRoot, List.append_right_inj,
    Decimal.toDigits_separated_inj (by decide), UInt64.toNat_inj, UInt64.toNat_inj]
  obtain ⟨value⟩ := version
  obtain ⟨value'⟩ := version'
  simp

/-- The two conversions between bytes and `char`s undo each other. -/
theorem toKey_makeRoot (epoch : EpochNumber) (version : RootVersion) :
    toKey (makeRoot epoch version).bytes = StdString.ofAscii (encodeRoot epoch version) := by
  simp [toKey, makeRoot, Function.comp_def]

/-- Roots are known under different keys unless epoch and version agree. -/
theorem rootFor_key_inj {epoch epoch' : EpochNumber} {version version' : RootVersion} :
    (rootFor epoch version).key = (rootFor epoch' version').key ↔
      epoch = epoch' ∧ version = version' := by
  rw [RootReference.key, RootReference.key, rootFor_root, rootFor_root, toKey_makeRoot,
    toKey_makeRoot, StdString.ofAscii_inj (encodeRoot_ascii _ _) (encodeRoot_ascii _ _),
    encodeRoot_inj]

/-! ### Steps between points -/

/-- The two states agree on epoch, version, current root, root map and keys. -/
structure SameRoots (m m' : PlaintextModel) : Prop where
  current_epoch : m'.current_epoch_ = m.current_epoch_
  root_version : m'.root_version_ = m.root_version_
  current_root : m'.current_root_ = m.current_root_
  valid_roots : m'.valid_roots_ = m.valid_roots_
  root_keys : m'.current_epoch_root_keys_ = m.current_epoch_root_keys_

theorem SameRoots.refl (m : PlaintextModel) : SameRoots m m := ⟨rfl, rfl, rfl, rfl, rfl⟩

/-- The step issues the root that follows, and starts a new key list when it
    changes the epoch. -/
structure IssuesRoot (m m' : PlaintextModel) : Prop where
  root_version : m'.root_version_ = { value := m.root_version_.value + 1 }
  current_root : m'.current_root_ = rootFor m'.current_epoch_ m'.root_version_
  valid_roots : m'.valid_roots_ =
    m.valid_roots_.insert m'.current_root_.key { reference := m'.current_root_ }
  root_keys : m'.current_epoch_root_keys_ =
    (if m.current_epoch_ = m'.current_epoch_ then m.current_epoch_root_keys_ else []) ++
      [m'.current_root_.key]

/-- From one point to the next a run issues at most one root. -/
inductive RootStep (m m' : PlaintextModel) : Prop where
  | stay (hsame : SameRoots m m')
  | issue (hissue : IssuesRoot m m')

theorem SameRoots.issuesRoot {m m' : PlaintextModel} (h : SameRoots m m') :
    IssuesRoot m m'.issueRoot := by
  refine ⟨?_, rfl, ?_, ?_⟩
  · rw [issueRoot_root_version, h.root_version]
  · rw [issueRoot_valid_roots, h.valid_roots, issueRoot_current_root]
  · rw [issueRoot_current_epoch, if_pos h.current_epoch.symm, issueRoot_current_epoch_root_keys,
      h.root_keys, issueRoot_current_root]

theorem IssuesRoot.enterEpoch {m : PlaintextModel} {epoch : EpochNumber}
    (hne : m.current_epoch_ ≠ epoch) : IssuesRoot m (m.enterEpoch epoch) := by
  refine ⟨rfl, rfl, rfl, ?_⟩
  rw [enterEpoch_current_epoch, if_neg hne]
  rfl

/-- Stepping to the following epoch. -/
theorem IssuesRoot.nextEpoch (m : PlaintextModel) : IssuesRoot m m.nextEpoch :=
  .enterEpoch (Word.add_one_ne_self m.current_epoch_).symm

theorem IssuesRoot.registered (m : PlaintextModel) (request : RegistrationRequest)
    (states : StdVector AccountState) : IssuesRoot m (m.registered request states) :=
  SameRoots.issuesRoot ⟨rfl, rfl, rfl, rfl, rfl⟩

theorem IssuesRoot.minted (m : PlaintextModel) (mint : PublicToPrivateMint) :
    IssuesRoot m (m.minted mint) :=
  SameRoots.issuesRoot ⟨rfl, rfl, rfl, rfl, rfl⟩

theorem IssuesRoot.transferred (m : PlaintextModel) (transfer : PrivateTransfer) :
    IssuesRoot m (m.transferred transfer) :=
  SameRoots.issuesRoot ⟨rfl, rfl, rfl, rfl, rfl⟩

theorem SameRoots.replacedEntry (m : PlaintextModel) (index : UInt64)
    (entry : PrivateAccountEntry) : SameRoots m (m.replacedEntry index entry) :=
  ⟨rfl, rfl, rfl, rfl, rfl⟩

theorem SameRoots.insertedEntry (m : PlaintextModel) (entry : PrivateAccountEntry)
    (states : StdVector AccountState) : SameRoots m (m.insertedEntry entry states) :=
  ⟨rfl, rfl, rfl, rfl, rfl⟩

/-- A relation that holds of each step forward holds along all of them. -/
theorem advanceTrail_chain {R : PlaintextModel → PlaintextModel → Prop}
    (hstep : ∀ p : PlaintextModel, R p p.nextEpoch) (m : PlaintextModel) (n : Nat) :
    (m :: m.advanceTrail n).IsChain R := by
  induction n with
  | zero => exact List.isChain_singleton m
  | succ n ih =>
    rw [advanceTrail_succ, ← List.cons_append, List.isChain_append]
    refine ⟨ih, List.isChain_singleton _, ?_⟩
    intro p hp q hq
    obtain rfl : m.advancedBy n = p := by
      rw [List.getLast?_eq_some_getLast (List.cons_ne_nil _ _), getLast_advanceTrail] at hp
      exact Option.some.inj hp
    obtain rfl : m.advancedBy (n + 1) = q := Option.some.inj hq
    rw [advancedBy_succ]
    exact hstep _

/-- A reflexive relation holds along the trail of a call that does nothing. -/
theorem idle_chain {R : PlaintextModel → PlaintextModel → Prop} {m : PlaintextModel}
    {trail : List PlaintextModel} (hrefl : R m m) (htrail : trail = [] ∨ trail = [m]) :
    (m :: trail).IsChain R := by
  rcases htrail with htrail | htrail
  · rw [htrail]
    exact List.isChain_singleton m
  · rw [htrail]
    exact List.isChain_pair.mpr hrefl

/-- The trail of every call consists of such steps. -/
theorem Transition.root_chain {m m' : PlaintextModel} {call : Call} {reply : Reply}
    {trail : List PlaintextModel} (h : Transition m call reply trail m') :
    (m :: trail).IsChain RootStep := by
  cases h with
  | idle _ htrail => exact idle_chain (.stay (SameRoots.refl m)) htrail
  | reached => exact List.isChain_singleton m
  | registered => exact List.isChain_pair.mpr (.issue (.registered ..))
  | replaced => exact List.isChain_pair.mpr (.stay (.replacedEntry ..))
  | inserted => exact List.isChain_pair.mpr (.stay (.insertedEntry ..))
  | minted => exact List.isChain_pair.mpr (.issue (.minted ..))
  | transferred => exact List.isChain_pair.mpr (.issue (.transferred ..))
  | advanced => exact advanceTrail_chain (fun p => .issue (.nextEpoch p)) m _
  | movedBack hlt =>
    exact List.isChain_pair.mpr (.issue (.enterEpoch (UInt64.ne_of_lt hlt).symm))

/-! ### Roots along a sequence of points -/

/-- The roots issued along a sequence of points, in the order of issue. -/
def issuedRoots (ps : List PlaintextModel) : List RootReference :=
  successive (ps.map current_root_)

/-- Those of them issued since the epoch last changed. -/
def epochRoots (ps : List PlaintextModel) : List RootReference :=
  successive ((currentStretch (·.current_epoch_) ps).map current_root_)

/-- Later points add to the issued roots at the end. -/
theorem issuedRoots_grow {ps qs : List PlaintextModel} (h : ps <+: qs) :
    issuedRoots ps <+: issuedRoots qs := by
  obtain ⟨rest, hrest⟩ := h
  unfold issuedRoots
  rw [← hrest, List.map_append]
  exact successive_prefix _ _

section Concat

variable {ps : List PlaintextModel} {p q : PlaintextModel} (hlast : ps.getLast? = some p)
include hlast

theorem issuedRoots_concat :
    issuedRoots (ps ++ [q]) =
      if p.current_root_ = q.current_root_ then issuedRoots ps
      else issuedRoots ps ++ [q.current_root_] := by
  have hroots : (ps.map current_root_).getLast? = some p.current_root_ := by
    rw [List.getLast?_map, hlast]
    rfl
  unfold issuedRoots
  rw [List.map_append, List.map_singleton, successive_concat hroots]

theorem epochRoots_concat :
    epochRoots (ps ++ [q]) =
      if p.current_epoch_ = q.current_epoch_ then
        if p.current_root_ = q.current_root_ then epochRoots ps
        else epochRoots ps ++ [q.current_root_]
      else [q.current_root_] := by
  have hroots : ((currentStretch (·.current_epoch_) ps).map current_root_).getLast? =
      some p.current_root_ := by
    rw [List.getLast?_map, getLast?_currentStretch _ hlast]
    rfl
  unfold epochRoots
  rw [currentStretch_concat _ hlast]
  split
  · rw [List.map_append, List.map_singleton, successive_concat hroots]
  · rfl

end Concat

/-- The root fields of `m` against the points that led to it. -/
structure RootHistory (ps : List PlaintextModel) (m : PlaintextModel) : Prop where
  /-- The current root is the one of the current epoch and version. -/
  own : m.current_root_ = rootFor m.current_epoch_ m.root_version_
  /-- The version counts the roots issued, modulo the word size. -/
  version : m.root_version_.value = UInt64.ofNat (issuedRoots ps).length
  /-- Each root carries its place in the order of issue. -/
  issued : ∀ k root, (issuedRoots ps)[k]? = some root →
    root = rootFor root.epoch { value := UInt64.ofNat (k + 1) }
  /-- The root map knows the issued roots, each under its key. -/
  known : ∀ key record, m.valid_roots_.lookup key = some record ↔
    record.reference ∈ issuedRoots ps ∧ record.reference.key = key
  /-- The key list holds the keys of the roots of the epoch. -/
  keys : m.current_epoch_root_keys_ = (epochRoots ps).map RootReference.key
  suffix : epochRoots ps <:+ issuedRoots ps
  last : (epochRoots ps).getLast? = some m.current_root_
  epochs : ∀ root ∈ epochRoots ps, root.epoch = m.current_epoch_

theorem create_rootHistory : RootHistory [create] create := by
  have hissued : issuedRoots [create] = [rootFor 0 { value := 1 }] := rfl
  have hepoch : epochRoots [create] = [rootFor 0 { value := 1 }] := by
    rw [epochRoots, currentStretch_singleton]
    rfl
  refine ⟨rfl, rfl, ?_, ?_, ?_, ?_, ?_, ?_⟩
  · intro k root hroot
    rw [hissued, List.getElem?_singleton] at hroot
    split at hroot
    · next hk => cases hroot; subst hk; rfl
    · contradiction
  · intro key record
    have hvalid : create.valid_roots_ =
        Finmap.insert (rootFor 0 { value := 1 }).key
          { reference := rootFor 0 { value := 1 } } ∅ := rfl
    rw [hvalid, hissued, List.mem_singleton]
    obtain ⟨reference⟩ := record
    by_cases hkey : key = (rootFor 0 { value := 1 }).key
    · rw [hkey, Finmap.lookup_insert, Option.some.injEq, RootRecord.mk.injEq]
      constructor
      · intro h
        exact ⟨h.symm, by rw [h]⟩
      · intro h
        exact h.1.symm
    · rw [Finmap.lookup_insert_of_ne _ hkey]
      constructor
      · intro h
        contradiction
      · intro ⟨href, hkey'⟩
        exact absurd (by rw [← hkey', href]) hkey
  · rw [hepoch]
    rfl
  · rw [hepoch, hissued]
  · rw [hepoch]
    rfl
  · rw [hepoch]
    intro root hroot
    rw [List.mem_singleton.mp hroot]
    rfl

/-- The root map after one more root: storing a root under its key can only
    repeat a record, as no other root has that key. -/
theorem RootHistory.known_insert {ps : List PlaintextModel} {m : PlaintextModel}
    (h : RootHistory ps m) (epoch : EpochNumber) (version : RootVersion) (key : StdString)
    (record : RootRecord) :
    (m.valid_roots_.insert (rootFor epoch version).key
        { reference := rootFor epoch version }).lookup key = some record ↔
      record.reference ∈ issuedRoots ps ++ [rootFor epoch version] ∧
        record.reference.key = key := by
  obtain ⟨reference⟩ := record
  rw [List.mem_append, List.mem_singleton]
  by_cases hkey : key = (rootFor epoch version).key
  · rw [hkey, Finmap.lookup_insert, Option.some.injEq, RootRecord.mk.injEq]
    constructor
    · intro href
      exact ⟨Or.inr href.symm, by rw [href]⟩
    · intro ⟨hmem, hsame⟩
      rcases hmem with hmem | href
      · -- issued before under the same key: the same epoch and version
        obtain ⟨k, hk⟩ := List.mem_iff_getElem?.mp hmem
        have hroot := h.issued k reference hk
        simp only at hsame
        rw [hroot, rootFor_key_inj] at hsame
        rw [hroot, hsame.1, hsame.2]
      · exact href.symm
  · rw [Finmap.lookup_insert_of_ne _ hkey, h.known]
    constructor
    · intro ⟨hmem, hsame⟩
      exact ⟨Or.inl hmem, hsame⟩
    · intro ⟨hmem, hsame⟩
      rcases hmem with hmem | href
      · exact ⟨hmem, hsame⟩
      · simp only at href hsame
        exact absurd (by rw [← hsame, href]) hkey

/-- A step that issues no root keeps the history. -/
theorem RootHistory.stay {ps : List PlaintextModel} {p q : PlaintextModel}
    (hlast : ps.getLast? = some p) (h : RootHistory ps p) (hsame : SameRoots p q) :
    RootHistory (ps ++ [q]) q := by
  have hissued : issuedRoots (ps ++ [q]) = issuedRoots ps := by
    rw [issuedRoots_concat hlast, if_pos hsame.current_root.symm]
  have hepoch : epochRoots (ps ++ [q]) = epochRoots ps := by
    rw [epochRoots_concat hlast, if_pos hsame.current_epoch.symm, if_pos hsame.current_root.symm]
  refine ⟨?_, ?_, ?_, ?_, ?_, ?_, ?_, ?_⟩
  · rw [hsame.current_root, hsame.current_epoch, hsame.root_version]
    exact h.own
  · rw [hsame.root_version, hissued]
    exact h.version
  · rw [hissued]
    exact h.issued
  · rw [hsame.valid_roots, hissued]
    exact h.known
  · rw [hsame.root_keys, hepoch]
    exact h.keys
  · rw [hepoch, hissued]
    exact h.suffix
  · rw [hepoch, hsame.current_root]
    exact h.last
  · rw [hepoch, hsame.current_epoch]
    exact h.epochs

/-- The version tells a new root from the one before it. -/
theorem IssuesRoot.current_root_ne {p q : PlaintextModel} (hissue : IssuesRoot p q)
    (hown : p.current_root_ = rootFor p.current_epoch_ p.root_version_) :
    p.current_root_ ≠ q.current_root_ := by
  intro heq
  have hversion := congrArg (fun root => root.version.value) heq
  rw [hown, hissue.current_root, hissue.root_version] at hversion
  exact Word.add_one_ne_self _ hversion.symm

theorem RootHistory.issue {ps : List PlaintextModel} {p q : PlaintextModel}
    (hlast : ps.getLast? = some p) (h : RootHistory ps p) (hissue : IssuesRoot p q) :
    RootHistory (ps ++ [q]) q := by
  have hne := hissue.current_root_ne h.own
  have hissued : issuedRoots (ps ++ [q]) = issuedRoots ps ++ [q.current_root_] := by
    rw [issuedRoots_concat hlast, if_neg hne]
  have hvalue : q.root_version_.value = UInt64.ofNat ((issuedRoots ps).length + 1) := by
    rw [hissue.root_version, h.version, UInt64.ofNat_add]
    rfl
  have hepoch : epochRoots (ps ++ [q]) =
      (if p.current_epoch_ = q.current_epoch_ then epochRoots ps else []) ++
        [q.current_root_] := by
    rw [epochRoots_concat hlast, if_neg hne]
    split
    · rfl
    · rfl
  refine ⟨hissue.current_root, ?_, ?_, ?_, ?_, ?_, ?_, ?_⟩
  · rw [hissued, hvalue, List.length_append, List.length_singleton]
  · intro k root hroot
    rw [hissued] at hroot
    rcases Nat.lt_or_ge k (issuedRoots ps).length with hk | hk
    · rw [List.getElem?_append_left hk] at hroot
      exact h.issued k root hroot
    · -- the root just issued
      obtain ⟨hlt, _⟩ := List.getElem?_eq_some_iff.mp hroot
      rw [List.length_append, List.length_singleton] at hlt
      have hkeq : k = (issuedRoots ps).length := by omega
      subst hkeq
      rw [List.getElem?_concat_length, Option.some.injEq] at hroot
      rw [← hroot, hissue.current_root, ← hvalue]
      rfl
  · intro key record
    rw [hissue.valid_roots, hissued, hissue.current_root]
    show (p.valid_roots_.insert (RootReference.key _) _).lookup key = some record ↔ _
    exact h.known_insert _ _ key record
  · rw [hissue.root_keys, hepoch, h.keys]
    split
    · rw [List.map_append, List.map_singleton]
    · rfl
  · rw [hepoch, hissued]
    split
    · -- within the epoch both lists grow at the end
      obtain ⟨front, hfront⟩ := h.suffix
      exact ⟨front, by rw [← hfront, List.append_assoc]⟩
    · exact List.suffix_append _ _
  · rw [hepoch, List.getLast?_concat]
  · rw [hepoch]
    intro root hroot
    rcases List.mem_append.mp hroot with hroot | hroot
    · split at hroot
      · next hsame => rw [h.epochs root hroot, hsame]
      · contradiction
    · rw [List.mem_singleton.mp hroot, hissue.current_root]
      rfl

/-- The root fields follow the points in every run. -/
theorem rootHistory_of_chain {ps : List PlaintextModel} (hchain : (create :: ps).IsChain RootStep)
    {m : PlaintextModel} (hlast : (create :: ps).getLast? = some m) :
    RootHistory (create :: ps) m := by
  refine chain_invariant RootHistory create_rootHistory ?_ hchain hlast
  intro ps p q hp h hstep
  cases hstep with
  | stay hsame => exact h.stay hp hsame
  | issue hissue => exact h.issue hp hissue

/-- From point to point a run issues at most one root. -/
theorem points_root_chain (calls : List Call) : (machine.points calls).IsChain RootStep :=
  machine.points_chain fun pre call _ _ => ((machine.final pre).exec_transition call).root_chain

theorem rootHistory (calls : List Call) :
    RootHistory (machine.points calls) (machine.final calls) :=
  rootHistory_of_chain (points_root_chain calls) (machine.getLast?_points calls)

/-! ### Counting the roots -/

/-- The transactions that issue a root when they are accepted. -/
def Call.issuesRoot : Call → Bool
  | .register _ => true
  | .mint _ => true
  | .transfer _ => true
  | _ => false

/-- The epochs stepped over by a move forward; a move backward is one step. -/
def epochSteps (before after : EpochNumber) : Nat :=
  if after < before then 1 else after.toNat - before.toNat

/-- The number of roots one call issues. -/
def rootsAdded (call : Call) (reply : Reply) (m m' : PlaintextModel) : Nat :=
  (call.issuesRoot && reply.accepted).toNat + epochSteps m.current_epoch_ m'.current_epoch_

@[simp] theorem epochSteps_self (epoch : EpochNumber) : epochSteps epoch epoch = 0 := by
  simp [epochSteps]

theorem issuesRoot_of_movesEpoch {call : Call} (h : call.movesEpoch = true) :
    call.issuesRoot = false :=
  Call.of_movesEpoch (P := fun call => call.issuesRoot = false) rfl (fun _ => rfl) (fun _ => rfl) h

theorem advancedBy_own {m : PlaintextModel}
    (hown : m.current_root_ = rootFor m.current_epoch_ m.root_version_) (n : Nat) :
    current_root_ (m.advancedBy n) =
      rootFor (m.advancedBy n).current_epoch_ (m.advancedBy n).root_version_ := by
  cases n with
  | zero => exact hown
  | succ n => rw [advancedBy_succ]; rfl

section Count

variable {ps : List PlaintextModel} {m : PlaintextModel} (hlast : ps.getLast? = some m)
include hlast

theorem length_issuedRoots_stay {q : PlaintextModel} (hsame : SameRoots m q) :
    (issuedRoots (ps ++ [q])).length = (issuedRoots ps).length := by
  rw [issuedRoots_concat hlast, if_pos hsame.current_root.symm]

variable (hown : m.current_root_ = rootFor m.current_epoch_ m.root_version_)
include hown

theorem length_issuedRoots_issue {q : PlaintextModel} (hissue : IssuesRoot m q) :
    (issuedRoots (ps ++ [q])).length = (issuedRoots ps).length + 1 := by
  rw [issuedRoots_concat hlast, if_neg (hissue.current_root_ne hown), List.length_append,
    List.length_singleton]

theorem length_issuedRoots_advance (n : Nat) :
    (issuedRoots (ps ++ m.advanceTrail n)).length = (issuedRoots ps).length + n := by
  induction n with
  | zero => rw [show m.advanceTrail 0 = [] from rfl, List.append_nil, Nat.add_zero]
  | succ n ih =>
    have hprev : (ps ++ m.advanceTrail n).getLast? = some (m.advancedBy n) := by
      obtain ⟨front, hfront⟩ := List.getLast?_eq_some_iff.mp hlast
      rw [hfront, List.append_assoc, List.singleton_append, List.getLast?_append_cons,
        List.getLast?_eq_some_getLast (List.cons_ne_nil _ _), getLast_advanceTrail]
    have hissue : IssuesRoot (m.advancedBy n) (m.advancedBy (n + 1)) := by
      rw [advancedBy_succ]
      exact IssuesRoot.nextEpoch _
    rw [advanceTrail_succ, ← List.append_assoc,
      length_issuedRoots_issue hprev (advancedBy_own hown n) hissue, ih, Nat.add_assoc]

/-- What a call adds to the issued roots. -/
theorem length_issuedRoots_step {m' : PlaintextModel} {call : Call} {reply : Reply}
    {trail : List PlaintextModel} (hstep : Transition m call reply trail m') :
    (issuedRoots (ps ++ trail)).length = (issuedRoots ps).length + rootsAdded call reply m m' := by
  unfold rootsAdded
  -- each case: what the trail adds to the list, and how the epoch moves
  cases hstep with
  | idle hreply htrail =>
    rw [hreply, Bool.and_false, epochSteps_self]
    rcases htrail with htrail | htrail
    · rw [htrail, List.append_nil]
      rfl
    · rw [htrail, length_issuedRoots_stay hlast (SameRoots.refl m)]
      rfl
  | reached =>
    rw [List.append_nil, epochSteps_self]
    rfl
  | @registered request result states hid hnew hpush hok =>
    have hsteps : epochSteps m.current_epoch_ (m.registered request states).current_epoch_ = 0 :=
      epochSteps_self _
    rw [length_issuedRoots_issue hlast hown (.registered ..), hsteps]
    simp [Call.issuesRoot, Reply.accepted, Reply.status?, hok]
  | @replaced entry index _ _ =>
    have hsteps : epochSteps m.current_epoch_ (m.replacedEntry index entry).current_epoch_ = 0 :=
      epochSteps_self _
    rw [length_issuedRoots_stay hlast (.replacedEntry ..), hsteps]
    rfl
  | @inserted entry states _ _ _ =>
    have hsteps : epochSteps m.current_epoch_ (m.insertedEntry entry states).current_epoch_ = 0 :=
      epochSteps_self _
    rw [length_issuedRoots_stay hlast (.insertedEntry ..), hsteps]
    rfl
  | @minted mint result _ hok =>
    have hsteps : epochSteps m.current_epoch_ (m.minted mint).current_epoch_ = 0 :=
      epochSteps_self _
    rw [length_issuedRoots_issue hlast hown (.minted ..), hsteps]
    simp [Call.issuesRoot, Reply.accepted, Reply.status?, hok]
  | @transferred transfer result _ hok =>
    have hsteps : epochSteps m.current_epoch_ (m.transferred transfer).current_epoch_ = 0 :=
      epochSteps_self _
    rw [length_issuedRoots_issue hlast hown (.transferred ..), hsteps]
    simp [Call.issuesRoot, Reply.accepted, Reply.status?, hok]
  | @advanced _ _ n hmoves _ hpos hroom =>
    have hepoch := advancedBy_current_epoch hroom
    have hsteps : epochSteps m.current_epoch_ (m.advancedBy n).current_epoch_ = n := by
      rw [epochSteps, if_neg (by rw [UInt64.lt_iff_toNat_lt]; omega), hepoch]
      omega
    rw [length_issuedRoots_advance hlast hown, issuesRoot_of_movesEpoch hmoves, hsteps]
    simp
  | @movedBack epoch hlt =>
    have hsteps : epochSteps m.current_epoch_ (m.enterEpoch epoch).current_epoch_ = 1 := by
      rw [enterEpoch_current_epoch, epochSteps, if_pos hlt]
    rw [length_issuedRoots_issue hlast hown (IssuesRoot.enterEpoch (UInt64.ne_of_lt hlt).symm),
      hsteps]
    rfl

end Count

/-- The number of roots a run issues, the one of the constructor included. -/
theorem length_issuedRoots (calls : List Call) :
    (issuedRoots (machine.points calls)).length =
      1 + (machine.events calls).countP (fun e => e.call.issuesRoot && e.reply.accepted) +
        ((machine.events calls).map fun e =>
          epochSteps e.before.current_epoch_ e.after.current_epoch_).sum := by
  induction calls using List.reverseRecOn with
  | nil => rfl
  | append_singleton calls call ih =>
    have hstep := length_issuedRoots_step (machine.getLast?_points calls)
      (rootHistory calls).own ((machine.final calls).exec_transition call)
    have hcount : [machine.event (machine.final calls) call].countP
          (fun e => e.call.issuesRoot && e.reply.accepted) =
        (call.issuesRoot && ((machine.final calls).exec call).1.accepted).toNat := by
      rw [List.countP_singleton]
      split
      · next hadds => exact (congrArg Bool.toNat hadds).symm
      · next hnone => exact (congrArg Bool.toNat (Bool.eq_false_iff.mpr hnone)).symm
    rw [rootsAdded] at hstep
    rw [machine.points_concat, machine_trail, hstep, ih, machine.events_concat,
      List.countP_append, hcount, List.map_append, List.sum_append]
    simp only [Machine.event_before, Machine.event_after, machine_exec, List.map_singleton,
      List.sum_singleton]
    omega

/-! ### The root history -/

/-- While the versions do not wrap, each root carries its place in the order
    of issue. -/
theorem RootHistory.version_toNat {ps : List PlaintextModel} {m : PlaintextModel}
    (h : RootHistory ps m) (hfew : (issuedRoots ps).length < 2 ^ 64) {k : Nat}
    {root : RootReference} (hroot : (issuedRoots ps)[k]? = some root) :
    root.version.value.toNat = k + 1 := by
  have hlt := (List.getElem?_eq_some_iff.mp hroot).1
  rw [h.issued k root hroot, rootFor_version, UInt64.toNat_ofNat']
  omega

theorem RootHistory.nodup_versions {ps : List PlaintextModel} {m : PlaintextModel}
    (h : RootHistory ps m) (hfew : (issuedRoots ps).length < 2 ^ 64) :
    ((issuedRoots ps).map (·.version)).Nodup := by
  rw [List.nodup_iff_getElem?_ne_getElem?]
  intro i j hij hj heq
  rw [List.length_map] at hj
  rw [List.getElem?_map, List.getElem?_map, List.getElem?_eq_getElem hj,
    List.getElem?_eq_getElem (hij.trans hj), Option.map_some, Option.map_some,
    Option.some.injEq] at heq
  have hi := h.version_toNat hfew (List.getElem?_eq_getElem (hij.trans hj))
  have hj := h.version_toNat hfew (List.getElem?_eq_getElem hj)
  rw [heq] at hi
  omega

/-- The bytes of a root are as good as its version. -/
theorem RootHistory.nodup_bytes {ps : List PlaintextModel} {m : PlaintextModel}
    (h : RootHistory ps m) (hfew : (issuedRoots ps).length < 2 ^ 64) :
    ((issuedRoots ps).map (·.root.bytes)).Nodup := by
  have hversions := h.nodup_versions hfew
  have hnodup := List.Nodup.of_map _ hversions
  rw [List.nodup_map_iff_inj_on hnodup] at hversions ⊢
  intro r hr s hs hbytes
  -- the bytes are a key, and a key determines the version
  apply hversions r hr s hs
  obtain ⟨i, hi⟩ := List.mem_iff_getElem?.mp hr
  obtain ⟨j, hj⟩ := List.mem_iff_getElem?.mp hs
  have hkey : r.key = s.key := congrArg toKey hbytes
  rw [h.issued i r hi, h.issued j s hj, rootFor_key_inj] at hkey
  rw [h.issued i r hi, h.issued j s hj, rootFor_version, rootFor_version, hkey.2]

theorem RootHistory.consecutive {ps : List PlaintextModel} {m : PlaintextModel}
    (h : RootHistory ps m) (hfew : (issuedRoots ps).length < 2 ^ 64) :
    (issuedRoots ps).IsChain fun r s => s.version.value.toNat = r.version.value.toNat + 1 := by
  rw [List.isChain_iff_getElem]
  intro i hi
  rw [h.version_toNat hfew (List.getElem?_eq_getElem hi),
    h.version_toNat hfew (List.getElem?_eq_getElem (Nat.lt_of_succ_lt hi))]

/-- No key of the current epoch is missing from the root map, so the list of
    its roots is complete. -/
theorem RootHistory.current_root_versions_eq {ps : List PlaintextModel} {m : PlaintextModel}
    (h : RootHistory ps m) : m.current_root_versions = epochRoots ps := by
  unfold current_root_versions
  rw [h.keys, List.filterMap_map]
  conv_rhs => rw [← List.filterMap_some (l := epochRoots ps)]
  apply List.filterMap_congr
  intro root hroot
  -- the lookup of an issued root finds it
  have hlookup := (h.known root.key { reference := root }).mpr ⟨h.suffix.subset hroot, rfl⟩
  rw [Function.comp_apply, hlookup]
  rfl

/-- **Root history.** In a run that issues fewer roots than there are
    versions, no root is issued twice, neither its bytes nor its version;
    the current root belongs to the current epoch and its version counts
    the transitions so far; and the roots reported for the current epoch
    are those issued since it was entered, in order and without a gap. -/
theorem root_history_invariant (calls : List Call)
    (hfew : (issuedRoots (machine.points calls)).length < 2 ^ 64) :
    let m := machine.final calls
    let roots := issuedRoots (machine.points calls)
    ((roots.map (·.root.bytes)).Nodup ∧ (roots.map (·.version)).Nodup) ∧
    (m.current_root_reference.epoch = m.current_epoch ∧
      m.current_root_reference.version.value.toNat =
        1 + (machine.events calls).countP (fun e => e.call.issuesRoot && e.reply.accepted) +
          ((machine.events calls).map fun e =>
            epochSteps e.before.current_epoch_ e.after.current_epoch_).sum) ∧
    m.current_root_versions = epochRoots (machine.points calls) ∧
    (∀ root ∈ m.current_root_versions, root.epoch = m.current_epoch) ∧
    m.current_root_versions.IsChain
      (fun r s => s.version.value.toNat = r.version.value.toNat + 1) ∧
    m.current_root_versions.getLast? = some m.current_root_reference := by
  intro m roots
  have h : RootHistory (machine.points calls) m := rootHistory calls
  have hversions := h.current_root_versions_eq
  refine ⟨⟨h.nodup_bytes hfew, h.nodup_versions hfew⟩, ⟨?_, ?_⟩, hversions, ?_, ?_, ?_⟩
  · rw [current_root_reference, h.own]
    rfl
  · rw [current_root_reference, h.own, rootFor_version, h.version, UInt64.toNat_ofNat',
      Nat.mod_eq_of_lt hfew]
    exact length_issuedRoots calls
  · rw [hversions]
    show ∀ root ∈ epochRoots (machine.points calls), root.epoch = m.current_epoch_
    exact h.epochs
  · rw [hversions]
    exact (h.consecutive hfew).suffix h.suffix
  · rw [hversions]
    show (epochRoots (machine.points calls)).getLast? = some m.current_root_
    exact h.last

/-- A registration, an epoch step and a step back. -/
theorem root_history_invariant_three_calls :
    let calls : List Call :=
      [.register { account_id := StdString.ofAscii "alice", public_key := {} }, .advanceEpoch,
        .set_current_epoch 0]
    (issuedRoots (machine.points calls)).length < 2 ^ 64 ∧
      (machine.final calls).current_root_reference.version.value.toNat = 4 := by
  intro calls
  have hfew : (issuedRoots (machine.points calls)).length < 2 ^ 64 := by decide
  refine ⟨hfew, ?_⟩
  have hversion := (root_history_invariant calls hfew).2.1.2
  rw [hversion]
  decide

end PlaintextModel

end Prifhete
